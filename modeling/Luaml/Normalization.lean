import Luaml.Relative

namespace Luaml

open Rust PathBuf

namespace Paths

/-- The text of a normal form, with whether it is absolute.  Steps up are only in front, and there
are none below the root. -/
inductive NormalText : Bool → Str → Prop
  | dot : NormalText false ['.']
  | relative (k : Nat) (names : List Str) :
    (k ≠ 0 ∨ names ≠ []) → (∀ s ∈ names, (Component.normal s).Proper) →
      NormalText false (Str.join ['/'] (List.replicate k ['.', '.'] ++ names))
  | absolute (names : List Str) :
    (∀ s ∈ names, (Component.normal s).Proper) →
      NormalText true ('/' :: Str.join ['/'] names)

theorem map_asOsStr (k : Nat) (names : List Str) :
    (List.replicate k Component.parentDir ++ names.map Component.normal).map Component.asOsStr =
      List.replicate k ['.', '.'] ++ names := by
  rw [List.map_append, List.map_replicate, List.map_map]
  exact congrArg _ (List.map_id names)

theorem normalize_text (p : Str) : NormalText (isAbsolute p) (normalize p) := by
  obtain ⟨cs, hnormal, hcs⟩ := components_foldl ⟨p⟩
  have hproper := hnormal.proper
  have heq : normalize p = (normalizeLexical ⟨p⟩).text := rfl
  rw [heq, normalizeLexical_eq hcs]
  obtain ⟨k, names, hroot, hnames⟩ := hnormal
  by_cases habs : isAbsolute p = true
  · have hrooted : root ⟨p⟩ = [.rootDir] := if_pos habs
    obtain rfl : k = 0 := hroot.elim (fun hnil => by simp [hrooted] at hnil) And.right
    rw [habs, hrooted, if_neg (by simp), List.singleton_append, text_extend_root hproper,
      map_asOsStr]
    exact .absolute names hnames
  · have hrooted : root ⟨p⟩ = [] := if_neg habs
    rw [Bool.eq_false_iff.mpr habs, hrooted, List.nil_append]
    split_ifs with hempty
    · exact .dot
    · rw [text_extend_nil hproper, map_asOsStr]
      refine .relative k names ?_ hnames
      by_contra hnone
      obtain ⟨rfl, rfl⟩ := not_or.mp hnone |>.imp not_not.mp not_not.mp
      exact hempty rfl

theorem foldl_normalizeStep (out start : List Component) (c : Component) :
    (normalizeStep out c).reverse.foldl normalizeStep start =
      normalizeStep (out.reverse.foldl normalizeStep start) c := by
  have hpush : (c :: out).reverse.foldl normalizeStep start =
      normalizeStep (out.reverse.foldl normalizeStep start) c := by
    rw [List.reverse_cons, List.foldl_append, List.foldl_cons, List.foldl_nil]
  cases c with
  | curDir => rfl
  | rootDir => exact hpush
  | normal s => exact hpush
  | parentDir =>
    cases out with
    | nil => exact hpush
    | cons last out =>
      cases last with
      | curDir => exact hpush
      | parentDir => exact hpush
      -- Both of these are put back by the run, and taken away or kept by the step after it.
      | normal s => simp [normalizeStep]
      | rootDir => simp [normalizeStep]

theorem foldl_collected (cs out start : List Component) :
    (cs.foldl normalizeStep out).reverse.foldl normalizeStep start =
      cs.foldl normalizeStep (out.reverse.foldl normalizeStep start) := by
  induction cs generalizing out with
  | nil => rfl
  | cons c cs ih => rw [List.foldl_cons, ih, foldl_normalizeStep, List.foldl_cons]

theorem normalizeLexical_foldl (p : PathBuf) (start : List Component) :
    (normalizeLexical p).components.foldl normalizeStep start =
      p.components.foldl normalizeStep start := by
  obtain ⟨cs, hnormal, hcs⟩ := components_foldl p
  have hreverse : root p ++ cs = (p.components.foldl normalizeStep []).reverse := by
    rw [hcs, List.reverse_append, List.reverse_reverse, root_reverse]
  have hparts : ∀ cs' : List Component,
      (parts cs').foldl normalizeStep start = cs'.foldl normalizeStep start := by
    intro cs'
    rw [parts]
    split_ifs with hempty
    · rw [hempty]
      rfl
    · rfl
  rw [normalizeLexical_components hnormal hcs, hparts, hreverse, foldl_collected]
  rfl

theorem normalizeLexical_idem (p : PathBuf) :
    normalizeLexical (normalizeLexical p) = normalizeLexical p :=
  normalizeLexical_inj.mpr (normalizeLexical_foldl p [])

theorem normalizeLexical_join (d p : PathBuf) :
    normalizeLexical (d.join p.text) = normalizeLexical (d.join (normalizeLexical p).text) := by
  have hsame := normalizeLexical_isAbsolute p
  by_cases habs : p.isAbsolute = true
  · rw [habs] at hsame
    rw [PathBuf.join, PathBuf.join, if_pos (.inl habs), if_pos (.inl hsame)]
    exact (normalizeLexical_idem p).symm
  · rw [Bool.not_eq_true] at habs
    rw [habs] at hsame
    rw [normalizeLexical_inj, join_foldl d p habs, join_foldl d _ hsame, normalizeLexical_foldl]

structure Directories (D : Type) where
  top : D
  child : D → Str → Option D
  parent : D → D
  parent_top : parent top = top
  parent_child {d e : D} {s : Str} : child d s = some e → parent e = d

namespace Directories

variable {D : Type} (dirs : Directories D)

def step (d : D) : Component → Option D
  | .rootDir => some dirs.top
  | .curDir => some d
  | .parentDir => some (dirs.parent d)
  | .normal s => dirs.child d s

def walk (d : D) (cs : List Component) : Option D := cs.foldlM dirs.step d

variable {dirs} {d e : D}

theorem walk_append {cs cs' : List Component} :
    dirs.walk d (cs ++ cs') = (dirs.walk d cs).bind fun e => dirs.walk e cs' := by
  rw [walk, List.foldlM_append]
  rfl

theorem walk_reverse_cons {c : Component} {out : List Component} :
    dirs.walk d (c :: out).reverse = (dirs.walk d out.reverse).bind fun e => dirs.step e c := by
  rw [List.reverse_cons, walk_append]
  congr 1
  funext e
  simp [walk]

theorem walk_push {c : Component} {out : List Component}
    (hwalk : dirs.walk d out.reverse = some e) :
    dirs.walk d (c :: out).reverse = dirs.step e c := by
  rw [walk_reverse_cons, hwalk, Option.bind_some]

theorem walk_normalizeStep {c : Component} {out : List Component}
    (hwalk : dirs.walk d (c :: out).reverse = some e) :
    dirs.walk d (normalizeStep out c).reverse = some e := by
  cases c with
  | rootDir => exact hwalk
  | normal s => exact hwalk
  | curDir =>
    rw [walk_reverse_cons] at hwalk
    obtain ⟨e', hout, heq⟩ := Option.bind_eq_some_iff.mp hwalk
    obtain rfl := Option.some.inj heq
    exact hout
  | parentDir =>
    cases out with
    | nil => exact hwalk
    | cons last out =>
      rw [walk_reverse_cons] at hwalk
      obtain ⟨f, hlast, hup⟩ := Option.bind_eq_some_iff.mp hwalk
      obtain rfl := Option.some.inj hup
      cases last with
      | curDir => exact walk_push hlast
      | parentDir => exact walk_push hlast
      | rootDir =>
        have htop := hlast
        rw [walk_reverse_cons] at htop
        obtain ⟨_, _, heq⟩ := Option.bind_eq_some_iff.mp htop
        obtain rfl := Option.some.inj heq
        rw [dirs.parent_top]
        exact hlast
      | normal s =>
        rw [walk_reverse_cons] at hlast
        obtain ⟨g, hout, hchild⟩ := Option.bind_eq_some_iff.mp hlast
        rw [dirs.parent_child hchild]
        exact hout

theorem walk_foldl {cs out : List Component} (hwalk : dirs.walk d (out.reverse ++ cs) = some e) :
    dirs.walk d (cs.foldl normalizeStep out).reverse = some e := by
  induction cs generalizing out with
  | nil => simpa using hwalk
  | cons c cs ih =>
    rw [List.append_cons, ← List.reverse_cons, walk_append] at hwalk
    obtain ⟨f, hfirst, hrest⟩ := Option.bind_eq_some_iff.mp hwalk
    refine ih ?_
    rw [walk_append, walk_normalizeStep hfirst]
    exact hrest

theorem walk_normalizeLexical {p : PathBuf} (hwalk : dirs.walk d p.components = some e) :
    dirs.walk d (normalizeLexical p).components = some e := by
  obtain ⟨cs, hnormal, hcs⟩ := components_foldl p
  have hrun : dirs.walk d (p.components.foldl normalizeStep []).reverse = some e :=
    walk_foldl hwalk
  rw [hcs, List.reverse_append, List.reverse_reverse, root_reverse] at hrun
  rw [normalizeLexical_components hnormal hcs, parts]
  split_ifs with hempty
  · rw [hempty] at hrun
    exact hrun
  · exact hrun

end Directories

/-- `path.normalize` gives a normal form, to which a path leads from every directory, absolute or
not, and which is its own normal form.  Where the path leads to a directory, so does the form. -/
theorem normalize_normal (p : Str) :
    NormalText (isAbsolute p) (normalize p) ∧
      (∀ d : Str, normalize (join [d, p]) = normalize (join [d, normalize p])) ∧
      normalize (normalize p) = normalize p ∧
      ∀ (D : Type) (dirs : Directories D) (d e : D),
        dirs.walk d (components ⟨p⟩) = some e →
          dirs.walk d (components ⟨normalize p⟩) = some e := by
  refine ⟨normalize_text p, fun d => ?_, congrArg PathBuf.text (normalizeLexical_idem ⟨p⟩), ?_⟩
  · exact congrArg PathBuf.text (normalizeLexical_join ⟨d⟩ ⟨p⟩)
  · intro D dirs d e hwalk
    exact Directories.walk_normalizeLexical hwalk

end Paths

end Luaml
