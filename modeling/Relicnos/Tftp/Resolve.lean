import Mathlib.Data.List.TakeWhile

/-!
# Names and files

`resolve` maps a requested name onto a file inside the served directory.

* `FileSystem`             canonical paths and regular files, as `os.path` answers them;
* `FileSystem.resolve`     the function;
* `slashed_passes`         the prefix test is containment by components, except for `/`;
* `resolve_serves`         it serves nothing outside the directory, and every file inside one that
  is not `/`.
-/

set_option linter.unusedVariables false

namespace Tftp

abbrev Str := List Char

/-! ## paths -/

/-- a component that names an entry of a directory -/
structure Plain (c : Str) : Prop where
  ne_nil : c ≠ []
  noSlash : '/' ∉ c
  ne_dot : c ≠ ['.']
  ne_dots : c ≠ ['.', '.']

def slashed (cs : List Str) : Str := cs.flatMap fun c => '/' :: c

/-- the absolute path with these components -/
def render (cs : List Str) : Str := if cs = [] then ['/'] else slashed cs

/-- the relative path with these components -/
def relative (cs : List Str) : Str := ['/'].intercalate cs

/-- the components of one path start with those of the other, and go on -/
def Within (root p : Str) : Prop :=
  ∃ cs rel, (∀ c ∈ cs ++ rel, Plain c) ∧ rel ≠ [] ∧ root = render cs ∧ p = render (cs ++ rel)

/-- `os.path.join` of two paths -/
def join (a b : Str) : Str :=
  if b.head? = some '/' then b
  else if a = [] ∨ a.getLast? = some '/' then a ++ b
  else a ++ '/' :: b

/-- `os.path.realpath` and `os.path.isfile` -/
structure FileSystem where
  realpath : Str → Str
  isFile : Str → Bool
  canonical : ∀ p, ∃ cs, (∀ c ∈ cs, Plain c) ∧ realpath p = render cs
  realpath_realpath : ∀ p, realpath (realpath p) = realpath p

/-- `fname.replace("\\", "/").lstrip("/")` -/
def mangle (fname : Str) : Str :=
  (fname.map fun c => if c = '\\' then '/' else c).dropWhile (· = '/')

def FileSystem.resolve (fs : FileSystem) (root fname : Str) : Option Str :=
  let name := mangle fname
  if name = [] then none
  else
    let root := fs.realpath root
    let cand := fs.realpath (join root name)
    if cand ≠ root ∧ ¬ (root ++ ['/']) <+: cand then none
    else if fs.isFile cand then some cand else none

/-! ## the prefix test -/

section
variable {cs es : List Str}

theorem slashed_cons (c : Str) (cs : List Str) : slashed (c :: cs) = '/' :: (c ++ slashed cs) := by
  unfold slashed
  rw [List.flatMap_cons, List.cons_append]

theorem slashed_append (cs es : List Str) : slashed (cs ++ es) = slashed cs ++ slashed es := by
  unfold slashed
  exact List.flatMap_append

/-- a component ends where the next slash is -/
theorem component_eq {c e r r' : Str} (hc : '/' ∉ c) (he : '/' ∉ e)
    (hr : r = [] ∨ r.head? = some '/') (hr' : r' = [] ∨ r'.head? = some '/')
    (h : c ++ r = e ++ r') : c = e := by
  have hstop : ∀ {x y : Str}, '/' ∉ x → (y = [] ∨ y.head? = some '/') →
      (x ++ y).takeWhile (· ≠ '/') = x := by
    intro x y hx hy
    have hall : ∀ a ∈ x, decide (a ≠ '/') = true := by
      intro a ha
      exact decide_eq_true fun he => hx (he ▸ ha)
    rw [List.takeWhile_append_of_pos hall]
    obtain rfl | hy := hy
    · rw [List.takeWhile_nil, List.append_nil]
    · cases y with
      | nil => cases hy
      | cons a y =>
        cases hy
        rw [List.takeWhile_cons_of_neg (by simp), List.append_nil]
  rw [← hstop hc hr, h, hstop he hr']

theorem slashed_head (cs : List Str) : slashed cs = [] ∨ (slashed cs).head? = some '/' := by
  cases cs with
  | nil => exact .inl rfl
  | cons c cs =>
    rw [slashed_cons]
    exact .inr rfl

/-- **The prefix test**: the components go on after those of the directory. -/
theorem slashed_passes (hc : ∀ c ∈ cs, '/' ∉ c) (he : ∀ e ∈ es, '/' ∉ e) :
    slashed cs ++ ['/'] <+: slashed es ↔ ∃ rel, rel ≠ [] ∧ es = cs ++ rel := by
  induction cs generalizing es with
  | nil =>
    cases es with
    | nil => simp [slashed]
    | cons e es =>
      rw [slashed_cons]
      exact ⟨fun _ => ⟨e :: es, List.cons_ne_nil _ _, rfl⟩, fun _ => ⟨e ++ slashed es, rfl⟩⟩
  | cons c cs ih =>
    have hc' := fun x hx => hc x (List.mem_cons_of_mem c hx)
    constructor
    · intro h
      cases es with
      | nil =>
        rw [slashed_cons] at h
        exact absurd (List.prefix_nil.mp h) (by simp)
      | cons e es =>
        have he' := fun x hx => he x (List.mem_cons_of_mem e hx)
        rw [slashed_cons, slashed_cons, List.cons_append, List.cons_prefix_cons,
          List.append_assoc] at h
        obtain ⟨_, t, ht⟩ := h
        rw [List.append_assoc] at ht
        have hhead : slashed cs ++ ['/'] ++ t = [] ∨
            (slashed cs ++ ['/'] ++ t).head? = some '/' := by
          cases cs with
          | nil => exact .inr rfl
          | cons d cs =>
            rw [slashed_cons]
            exact .inr rfl
        have hce : c = e := component_eq (hc c List.mem_cons_self) (he e List.mem_cons_self) hhead
          (slashed_head es) ht
        subst hce
        have hrest : slashed cs ++ ['/'] <+: slashed es := ⟨t, List.append_cancel_left ht⟩
        obtain ⟨rel, hne, hrel⟩ := (ih hc' he').mp hrest
        exact ⟨rel, hne, by rw [hrel]; rfl⟩
    · rintro ⟨rel, hne, rfl⟩
      have hrest := (ih hc' fun x hx => he x (List.mem_cons_of_mem c hx)).mpr ⟨rel, hne, rfl⟩
      rw [List.cons_append, slashed_cons, slashed_cons, List.cons_append, List.cons_prefix_cons,
        List.append_assoc]
      exact ⟨rfl, (List.prefix_append_right_inj c).mpr hrest⟩

theorem render_of_ne (h : cs ≠ []) : render cs = slashed cs := if_neg h

/-- the test the function makes: nothing passes it if the directory is `/` -/
theorem passes_iff (hc : ∀ c ∈ cs, Plain c) (he : ∀ e ∈ es, Plain e) :
    render cs ++ ['/'] <+: render es ↔ cs ≠ [] ∧ ∃ rel, rel ≠ [] ∧ es = cs ++ rel := by
  cases cs with
  | nil =>
    constructor
    · intro h
      cases es with
      | nil => exact absurd h.length_le (by decide)
      | cons e es =>
        rw [render_of_ne (List.cons_ne_nil e es), slashed_cons] at h
        obtain ⟨d, e', rfl⟩ := List.exists_cons_of_ne_nil (he e List.mem_cons_self).ne_nil
        obtain ⟨_, h⟩ := List.cons_prefix_cons.mp h
        obtain ⟨hd, _⟩ := List.cons_prefix_cons.mp h
        exact absurd (hd ▸ List.mem_cons_self) (he (d :: e') List.mem_cons_self).noSlash
    · intro h
      exact absurd rfl h.1
  | cons c cs =>
    rw [render_of_ne (List.cons_ne_nil c cs), and_iff_right (List.cons_ne_nil c cs)]
    cases es with
    | nil =>
      constructor
      · intro h
        have hlen := h.length_le
        rw [slashed_cons] at hlen
        exact absurd hlen (by simp [render])
      · intro ⟨rel, hne, h⟩
        exact absurd h.symm (List.append_ne_nil_of_left_ne_nil (List.cons_ne_nil c cs) rel)
    | cons e es =>
      rw [render_of_ne (List.cons_ne_nil e es)]
      exact slashed_passes (fun x hx => (hc x hx).noSlash) fun x hx => (he x hx).noSlash

/-! ## joining -/

theorem relative_cons (c : Str) (cs : List Str) : relative (c :: cs) = c ++ slashed cs := by
  induction cs generalizing c with
  | nil => simp [relative, slashed, List.intercalate]
  | cons d cs ih =>
    have hstep : relative (c :: d :: cs) = c ++ '/' :: relative (d :: cs) := by
      simp [relative, List.intercalate]
    rw [hstep, ih, slashed_cons]

theorem relative_head {rel : List Str} (hne : rel ≠ []) (hp : ∀ c ∈ rel, Plain c) :
    ∃ d t, relative rel = d :: t ∧ d ≠ '/' := by
  obtain ⟨c, rel, rfl⟩ := List.exists_cons_of_ne_nil hne
  have hc := hp c List.mem_cons_self
  obtain ⟨d, c', rfl⟩ := List.exists_cons_of_ne_nil hc.ne_nil
  refine ⟨d, c' ++ slashed rel, relative_cons _ _, ?_⟩
  intro hd
  exact hc.noSlash (hd ▸ List.mem_cons_self)

/-- a name that has nothing to mangle -/
theorem mangle_relative {rel : List Str} (hne : rel ≠ []) (hp : ∀ c ∈ rel, Plain c)
    (hb : '\\' ∉ relative rel) : mangle (relative rel) = relative rel := by
  have hmap : (relative rel).map (fun c => if c = '\\' then '/' else c) = relative rel := by
    refine (List.map_congr_left fun c hc => if_neg ?_).trans (List.map_id _)
    exact fun h => hb (h ▸ hc)
  obtain ⟨d, t, heq, hd⟩ := relative_head hne hp
  unfold mangle
  rw [hmap, heq, List.dropWhile_cons_of_neg (by simpa using hd)]

theorem slashed_getLast (h : cs ≠ []) (hc : ∀ c ∈ cs, Plain c) :
    (slashed cs).getLast? ≠ some '/' := by
  obtain ⟨ds, d, hcs⟩ := (List.eq_nil_or_concat cs).resolve_left h
  rw [List.concat_eq_append] at hcs
  subst hcs
  have hd := hc d (List.mem_append_right ds List.mem_cons_self)
  obtain ⟨d', x, hd'⟩ := (List.eq_nil_or_concat d).resolve_left hd.ne_nil
  rw [List.concat_eq_append] at hd'
  have hsplit : slashed (ds ++ [d]) = slashed ds ++ '/' :: d' ++ [x] := by
    rw [slashed_append, slashed_cons, hd']
    simp [slashed]
  rw [hsplit, List.getLast?_concat]
  intro hx
  apply hd.noSlash
  rw [hd', ← Option.some.inj hx]
  exact List.mem_append_right d' List.mem_cons_self

theorem join_render {rel : List Str} (hne : rel ≠ []) (hc : ∀ c ∈ cs, Plain c)
    (hp : ∀ c ∈ rel, Plain c) : join (render cs) (relative rel) = render (cs ++ rel) := by
  obtain ⟨d, t, heq, hd⟩ := relative_head hne hp
  have hhead : (relative rel).head? ≠ some '/' := by
    rw [heq]
    exact fun h => hd (Option.some.inj h)
  obtain ⟨c, rel', rfl⟩ := List.exists_cons_of_ne_nil hne
  unfold join
  rw [if_neg hhead, render_of_ne (List.append_ne_nil_of_right_ne_nil cs hne), slashed_append,
    slashed_cons, relative_cons]
  by_cases h : cs = []
  · subst h
    rw [if_pos (.inr rfl)]
    rfl
  · have hlast := slashed_getLast h hc
    have hnil : slashed cs ≠ [] := by
      obtain ⟨e, es, rfl⟩ := List.exists_cons_of_ne_nil h
      rw [slashed_cons]
      exact List.cons_ne_nil _ _
    rw [render_of_ne h, if_neg (not_or.mpr ⟨hnil, hlast⟩)]

end

/-! ## what is served -/

variable (fs : FileSystem) (root : Str)

/-- **The function by components**: the candidate is served if it is a file below the directory, and
the directory is not `/`. -/
theorem resolve_eq_some {cs : List Str} (hc : ∀ c ∈ cs, Plain c)
    (hroot : fs.realpath root = render cs) (hdir : fs.isFile (render cs) = false)
    (fname p : Str) : fs.resolve root fname = some p ↔
      mangle fname ≠ [] ∧ cs ≠ [] ∧ fs.realpath (join (render cs) (mangle fname)) = p ∧
        fs.isFile p = true ∧ ∃ rel, (∀ c ∈ rel, Plain c) ∧ rel ≠ [] ∧ p = render (cs ++ rel) := by
  obtain ⟨es, he, hcand⟩ := fs.canonical (join (render cs) (mangle fname))
  have hresolve : fs.resolve root fname =
      if mangle fname = [] then none
      else if render es ≠ render cs ∧ ¬ (render cs ++ ['/']) <+: render es then none
      else if fs.isFile (render es) then some (render es) else none := by
    unfold FileSystem.resolve
    simp only [hroot, hcand]
  rw [hresolve, hcand]
  by_cases hname : mangle fname = []
  · rw [if_pos hname]
    exact ⟨(fun h => nomatch h), fun h => absurd hname h.1⟩
  · rw [if_neg hname]
    constructor
    · intro h
      split at h
      · cases h
      · next htest =>
        split at h
        · next hfile =>
          cases h
          have hne : render es ≠ render cs := by
            intro heq
            rw [heq, hdir] at hfile
            cases hfile
          have hpre := not_not.mp fun hpre => htest ⟨hne, hpre⟩
          obtain ⟨hcs, rel, hrel, rfl⟩ := (passes_iff hc he).mp hpre
          exact ⟨hname, hcs, rfl, hfile, rel, fun c h => he c (List.mem_append_right cs h), hrel,
            rfl⟩
        · cases h
    · rintro ⟨_, hcs, rfl, hfile, rel, hplain, hrel, heq⟩
      have hall : ∀ c ∈ cs ++ rel, Plain c := by
        intro c h
        obtain h | h := List.mem_append.mp h
        · exact hc c h
        · exact hplain c h
      have hpre : render cs ++ ['/'] <+: render es := by
        rw [heq]
        exact (passes_iff hc hall).mpr ⟨hcs, rel, hrel, rfl⟩
      rw [if_neg fun h => h.2 hpre, if_pos hfile]

theorem render_eq_root {cs : List Str} (hc : ∀ c ∈ cs, Plain c) : render cs = ['/'] ↔ cs = [] := by
  constructor
  · intro h
    by_contra hne
    obtain ⟨c, cs, rfl⟩ := List.exists_cons_of_ne_nil hne
    rw [render_of_ne hne, slashed_cons] at h
    have hnil := (List.append_eq_nil_iff.mp (List.cons.inj h).2).1
    exact (hc c List.mem_cons_self).ne_nil hnil
  · intro h
    exact if_pos h

/-- **The function serves nothing outside the directory; and it serves a file below it exactly if
the directory is not `/` and the mangled name still leads to the file**, which it does if there is
no backslash in it. -/
theorem resolve_serves (hdir : fs.isFile (fs.realpath root) = false) :
    (∀ fname p, fs.resolve root fname = some p →
      fs.isFile p = true ∧ fs.realpath p = p ∧ Within (fs.realpath root) p) ∧
    ∀ cs rel, (∀ c ∈ cs ++ rel, Plain c) → rel ≠ [] → fs.realpath root = render cs →
      fs.isFile (render (cs ++ rel)) = true →
      fs.realpath (render (cs ++ rel)) = render (cs ++ rel) →
      (fs.resolve root (relative rel) = some (render (cs ++ rel)) ↔
        fs.realpath root ≠ ['/'] ∧ mangle (relative rel) ≠ [] ∧
          fs.realpath (join (render cs) (mangle (relative rel))) = render (cs ++ rel)) ∧
      ('\\' ∉ relative rel →
        (fs.resolve root (relative rel) = some (render (cs ++ rel)) ↔
          fs.realpath root ≠ ['/'])) := by
  constructor
  · intro fname p h
    obtain ⟨cs, hc, hroot⟩ := fs.canonical root
    rw [hroot] at hdir
    obtain ⟨_, _, hp, hfile, rel, hplain, hrel, hin⟩ :=
      (resolve_eq_some fs root hc hroot hdir fname p).mp h
    refine ⟨hfile, ?_, cs, rel, ?_, hrel, hroot, hin⟩
    · rw [← hp]
      exact fs.realpath_realpath _
    · intro c h
      obtain h | h := List.mem_append.mp h
      · exact hc c h
      · exact hplain c h
  · intro cs rel hall hrel hroot hfile hreal
    have hc : ∀ c ∈ cs, Plain c := fun c h => hall c (List.mem_append_left rel h)
    have hp : ∀ c ∈ rel, Plain c := fun c h => hall c (List.mem_append_right cs h)
    rw [hroot] at hdir
    have hne : render cs ≠ ['/'] ↔ cs ≠ [] := not_congr (render_eq_root hc)
    have hiff : fs.resolve root (relative rel) = some (render (cs ++ rel)) ↔
        fs.realpath root ≠ ['/'] ∧ mangle (relative rel) ≠ [] ∧
          fs.realpath (join (render cs) (mangle (relative rel))) = render (cs ++ rel) := by
      rw [resolve_eq_some fs root hc hroot hdir, hroot, hne]
      constructor
      · intro ⟨hname, hcs, hpath, _⟩
        exact ⟨hcs, hname, hpath⟩
      · intro ⟨hcs, hname, hpath⟩
        exact ⟨hname, hcs, hpath, hfile, rel, hp, hrel, rfl⟩
    refine ⟨hiff, ?_⟩
    intro hb
    rw [hiff, mangle_relative hrel hp hb, join_render hrel hc hp]
    obtain ⟨d, t, heq, _⟩ := relative_head hrel hp
    rw [heq]
    exact ⟨fun h => h.1, fun h => ⟨h, List.cons_ne_nil d t, hreal⟩⟩

/-! ## a file system without links -/

/-- one component more: `.` stays, `..` goes up -/
def enter (cs : List Str) (c : Str) : List Str :=
  if c = [] ∨ c = ['.'] then cs else if c = ['.', '.'] then cs.dropLast else cs ++ [c]

theorem split_noSlash (p : Str) : ∀ c ∈ p.splitOn '/', '/' ∉ c := by
  by_cases h : '/' ∈ p
  · obtain ⟨l, r, hs, hl⟩ := List.eq_append_cons_of_mem h
    rw [hs, List.splitOn_append_cons_self_of_not_mem hl]
    intro c hc
    obtain rfl | hc := List.mem_cons.mp hc
    · exact hl
    · exact split_noSlash r c hc
  · rw [List.splitOn_eq_singleton h]
    intro c hc
    rwa [List.mem_singleton.mp hc]
termination_by p.length
decreasing_by
  rw [hs, List.length_append, List.length_cons]
  omega

theorem foldl_enter_plain {ds : List Str} (hd : ∀ d ∈ ds, '/' ∉ d) (cs : List Str)
    (hc : ∀ c ∈ cs, Plain c) : ∀ c ∈ ds.foldl enter cs, Plain c := by
  induction ds generalizing cs with
  | nil => exact hc
  | cons d ds ih =>
    apply ih (fun x hx => hd x (List.mem_cons_of_mem d hx))
    intro c hmem
    unfold enter at hmem
    split at hmem
    · exact hc c hmem
    · next hskip =>
      split at hmem
      · exact hc c (List.dropLast_subset cs hmem)
      · next hup =>
        obtain hmem | hmem := List.mem_append.mp hmem
        · exact hc c hmem
        · rw [List.mem_singleton.mp hmem]
          obtain ⟨h0, h1⟩ := not_or.mp hskip
          exact ⟨h0, hd d List.mem_cons_self, h1, hup⟩

/-- plain components are entered as they are -/
theorem foldl_enter {es : List Str} (he : ∀ e ∈ es, Plain e) (cs : List Str) :
    es.foldl enter cs = cs ++ es := by
  induction es generalizing cs with
  | nil => exact (List.append_nil cs).symm
  | cons e es ih =>
    have hplain := he e List.mem_cons_self
    have hstep : enter cs e = cs ++ [e] := by
      unfold enter
      rw [if_neg (not_or.mpr ⟨hplain.ne_nil, hplain.ne_dot⟩), if_neg hplain.ne_dots]
    rw [List.foldl_cons, hstep, ih (fun x hx => he x (List.mem_cons_of_mem e hx)),
      List.append_assoc]
    rfl

theorem splitOn_slashed {c : Str} (hc : '/' ∉ c) {cs : List Str} (hcs : ∀ d ∈ cs, '/' ∉ d) :
    (c ++ slashed cs).splitOn '/' = c :: cs := by
  induction cs generalizing c with
  | nil => rw [show slashed [] = [] from rfl, List.append_nil, List.splitOn_eq_singleton hc]
  | cons d cs ih =>
    rw [slashed_cons, List.splitOn_append_cons_self_of_not_mem hc,
      ih (hcs d List.mem_cons_self) fun x hx => hcs x (List.mem_cons_of_mem d hx)]

theorem split_render {cs : List Str} (hc : ∀ c ∈ cs, Plain c) :
    ((render cs).splitOn '/').foldl enter [] = cs := by
  by_cases h : cs = []
  · subst h
    rfl
  · have hsplit := splitOn_slashed (c := []) List.not_mem_nil fun d hd => (hc d hd).noSlash
    rw [render_of_ne h]
    rw [List.nil_append] at hsplit
    rw [hsplit]
    exact foldl_enter hc []

/-- directories and these files, and the current directory is `/` -/
def noLinks (files : Str → Bool) : FileSystem where
  realpath p := render ((p.splitOn '/').foldl enter [])
  isFile := files
  canonical p :=
    ⟨_, foldl_enter_plain (split_noSlash p) [] fun _ h => absurd h List.not_mem_nil, rfl⟩
  realpath_realpath p := by
    rw [split_render (foldl_enter_plain (split_noSlash p) [] fun _ h => absurd h List.not_mem_nil)]

theorem plain_a : Plain ['a'] := ⟨by decide, by decide, by decide, by decide⟩

/-- the file `a` of the directory `/a` is served -/
theorem resolve_serves_a :
    (noLinks fun p => p = ['/', 'a', '/', 'a']).resolve ['/', 'a', '/'] ['a']
      = some ['/', 'a', '/', 'a'] := by
  have hplain : ∀ c ∈ [['a']] ++ [['a']], Plain c := by
    intro c hc
    simp only [List.cons_append, List.nil_append, List.mem_cons, List.not_mem_nil, or_false,
      or_self] at hc
    rw [hc]
    exact plain_a
  have h := resolve_serves (noLinks fun p => p = ['/', 'a', '/', 'a']) ['/', 'a', '/'] (by decide)
  exact ((h.2 [['a']] [['a']] hplain (List.cons_ne_nil _ _) rfl (by decide) rfl).2 (by decide)).mpr
    (by decide)

/-- no file is served if the directory is `/` -/
theorem resolve_slash : ¬ ∀ (fs : FileSystem) (root : Str), fs.isFile (fs.realpath root) = false →
    ∀ cs rel, (∀ c ∈ cs ++ rel, Plain c) → rel ≠ [] → fs.realpath root = render cs →
      fs.isFile (render (cs ++ rel)) = true →
      fs.realpath (render (cs ++ rel)) = render (cs ++ rel) →
      fs.resolve root (relative rel) = some (render (cs ++ rel)) := by
  intro h
  have hplain : ∀ c ∈ [] ++ [['a']], Plain c := by
    intro c hc
    rw [List.nil_append] at hc
    rw [List.mem_singleton.mp hc]
    exact plain_a
  have hserved := h (noLinks fun p => p = ['/', 'a']) ['/'] (by decide) [] [['a']] hplain
    (List.cons_ne_nil _ _) rfl (by decide) rfl
  exact absurd hserved (by decide)

end Tftp
