import Luaml.Lib.PathLaws
import Luaml.Paths

namespace Luaml

open Rust PathBuf

namespace Paths

/-- The components of a normal form below a root: steps up, and names below them.  There are none
above a root. -/
inductive Normal (root : List Component) : List Component → Prop
  | intro (k : Nat) (names : List Str) :
    root = [] ∨ root = [.rootDir] ∧ k = 0 → (∀ s ∈ names, (Component.normal s).Proper) →
      Normal root (List.replicate k .parentDir ++ names.map .normal)

theorem foldl_names (names : List Str) (out : List Component) :
    (names.map Component.normal).foldl normalizeStep out =
      (names.map Component.normal).reverse ++ out := by
  induction names generalizing out with
  | nil => rfl
  | cons s names ih => simp [normalizeStep, ih]

theorem foldl_ups (k n : Nat) :
    (List.replicate k Component.parentDir).foldl normalizeStep (List.replicate n .parentDir) =
      List.replicate (n + k) .parentDir := by
  induction k generalizing n with
  | zero => rfl
  | succ k ih =>
    have hstep : normalizeStep (List.replicate n .parentDir) .parentDir =
        List.replicate (n + 1) .parentDir := by cases n <;> rfl
    rw [List.replicate_succ, List.foldl_cons, hstep, ih, Nat.add_right_comm, Nat.add_assoc]

theorem foldl_back (names : List Str) (out : List Component) :
    (List.replicate names.length Component.parentDir).foldl normalizeStep
      ((names.map Component.normal).reverse ++ out) = out := by
  induction names using List.reverseRecOn with
  | nil => rfl
  | append_singleton names s ih =>
    rw [List.length_append, List.length_singleton, List.replicate_succ, List.foldl_cons]
    simpa [normalizeStep] using ih

theorem Normal.foldl {root cs : List Component} (hnormal : Normal root cs) :
    cs.foldl normalizeStep root = cs.reverse ++ root := by
  obtain ⟨k, names, hroot, -⟩ := hnormal
  have hups : (List.replicate k Component.parentDir).foldl normalizeStep root =
      List.replicate k .parentDir ++ root := by
    rcases hroot with rfl | ⟨rfl, rfl⟩
    · simpa using foldl_ups k 0
    · rfl
  rw [List.foldl_append, hups, foldl_names, List.reverse_append, List.reverse_replicate,
    List.append_assoc]

theorem Normal.up {cs : List Component} (hnormal : Normal [] cs) :
    Normal [] (.parentDir :: cs) := by
  obtain ⟨k, names, -, hnames⟩ := hnormal
  exact .intro (k + 1) names (.inl rfl) hnames

theorem Normal.step {root cs : List Component} (hnormal : Normal root cs) {c : Component}
    (hc : c.Proper) (hne : c ≠ .rootDir) :
    ∃ cs', Normal root cs' ∧ normalizeStep (cs.reverse ++ root) c = cs'.reverse ++ root := by
  obtain ⟨k, names, hroot, hnames⟩ := hnormal
  cases c with
  | rootDir => exact absurd rfl hne
  | curDir => exact ⟨_, .intro k names hroot hnames, rfl⟩
  | normal s =>
    refine ⟨_, .intro k (names ++ [s]) hroot fun t ht => ?_, by simp [normalizeStep]⟩
    rcases List.mem_append.mp ht with ht | ht
    · exact hnames t ht
    · rwa [List.mem_singleton.mp ht]
  | parentDir =>
    cases names using List.reverseRecOn with
    | append_singleton names s =>
      refine ⟨_, .intro k names hroot fun t ht => hnames t (List.mem_append_left _ ht), ?_⟩
      simp [normalizeStep]
    | nil =>
      rcases hroot with rfl | ⟨rfl, rfl⟩
      · refine ⟨_, .intro (k + 1) [] (.inl rfl) hnames, ?_⟩
        simpa using foldl_ups 1 k
      · exact ⟨_, .intro 0 [] (.inr ⟨rfl, rfl⟩) hnames, rfl⟩

theorem Normal.run {root cs : List Component} (hnormal : Normal root cs) {parts : List Component}
    (hparts : ∀ c ∈ parts, c.Proper ∧ c ≠ .rootDir) :
    ∃ cs', Normal root cs' ∧ parts.foldl normalizeStep (cs.reverse ++ root) =
      cs'.reverse ++ root := by
  induction parts generalizing cs with
  | nil => exact ⟨cs, hnormal, rfl⟩
  | cons c parts ih =>
    obtain ⟨⟨hc, hne⟩, hparts⟩ := List.forall_mem_cons.mp hparts
    obtain ⟨cs', hnormal', hstep⟩ := hnormal.step hc hne
    rw [List.foldl_cons, hstep]
    exact ih hnormal' hparts

theorem Normal.mem {root cs : List Component} (hnormal : Normal root cs) :
    ∀ c ∈ cs, c.Proper ∧ c ≠ .rootDir ∧ c ≠ .curDir := by
  obtain ⟨k, names, -, hnames⟩ := hnormal
  intro c hc
  rcases List.mem_append.mp hc with hc | hc
  · rw [List.eq_of_mem_replicate hc]
    exact ⟨trivial, by simp, by simp⟩
  · obtain ⟨s, hs, rfl⟩ := List.mem_map.mp hc
    exact ⟨hnames s hs, by simp, by simp⟩

theorem Normal.proper {root cs : List Component} (hnormal : Normal root cs) :
    ∀ c ∈ cs, c.Proper ∧ c ≠ .rootDir :=
  fun c hc => ⟨(hnormal.mem c hc).1, (hnormal.mem c hc).2.1⟩

def root (p : PathBuf) : List Component := if p.isAbsolute then [.rootDir] else []

theorem root_cases (p : PathBuf) : root p = [] ∨ root p = [.rootDir] := by
  rw [root]
  split
  · exact .inr rfl
  · exact .inl rfl

theorem root_reverse (p : PathBuf) : (root p).reverse = root p := by
  rcases root_cases p with hroot | hroot <;> rw [hroot] <;> rfl

theorem components_foldl (p : PathBuf) :
    ∃ cs, Normal (root p) cs ∧
      p.components.foldl normalizeStep [] = cs.reverse ++ root p := by
  obtain ⟨parts, hcases, hparts⟩ := p.components_proper
  have hproper : ∀ c ∈ parts, c.Proper ∧ c ≠ .rootDir := fun c hc =>
    ⟨(hparts c hc).1, (hparts c hc).2.1⟩
  have hnil : Normal (root p) [] := by
    refine .intro 0 [] ?_ (by simp)
    exact (root_cases p).imp_right fun hroot => ⟨hroot, rfl⟩
  have hrun := hnil.run hproper
  rw [List.reverse_nil, List.nil_append] at hrun
  have hroot : p.components.foldl normalizeStep [] = parts.foldl normalizeStep (root p) := by
    rw [root]
    rcases hcases with heq | heq | heq
    · have hrelative : ¬p.isAbsolute = true := by
        rw [isAbsolute_iff, heq]
        exact fun hhead => (hparts _ (List.mem_of_mem_head? hhead)).2.1 rfl
      rw [if_neg hrelative, heq]
    · rw [if_pos (isAbsolute_iff.mpr (by rw [heq]; rfl)), heq]
      rfl
    · have hrelative : ¬p.isAbsolute = true := by simp [isAbsolute_iff, heq]
      rw [if_neg hrelative, heq]
      rfl
  rwa [hroot]

theorem normalizeLexical_eq {p : PathBuf} {cs : List Component}
    (hcs : p.components.foldl normalizeStep [] = cs.reverse ++ root p) :
    normalizeLexical p =
      if root p ++ cs = [] then ⟨['.']⟩ else PathBuf.extend ⟨[]⟩ (root p ++ cs) := by
  rw [normalizeLexical, hcs, List.reverse_append, List.reverse_reverse, root_reverse]

def parts (cs : List Component) : List Component := if cs = [] then [.curDir] else cs

theorem parts_inj {cs cs' : List Component} (hcs : .curDir ∉ cs) (hcs' : .curDir ∉ cs')
    (hparts : parts cs = parts cs') : cs = cs' := by
  rw [parts, parts] at hparts
  split_ifs at hparts with hempty hempty' hempty'
  · rw [hempty, hempty']
  · exact absurd (hparts ▸ List.mem_singleton_self _) hcs'
  · exact absurd (hparts ▸ List.mem_singleton_self _) hcs
  · exact hparts

theorem curDir_not_mem {p : PathBuf} {cs : List Component} (hnormal : Normal (root p) cs) :
    .curDir ∉ root p ++ cs := by
  intro hmem
  rcases List.mem_append.mp hmem with hmem | hmem
  · rcases root_cases p with hroot | hroot <;> simp [hroot] at hmem
  · exact (hnormal.mem _ hmem).2.2 rfl

theorem normalizeLexical_components {p : PathBuf} {cs : List Component}
    (hnormal : Normal (root p) cs)
    (hcs : p.components.foldl normalizeStep [] = cs.reverse ++ root p) :
    (normalizeLexical p).components = parts (root p ++ cs) := by
  rw [normalizeLexical_eq hcs, parts]
  have hfilter : ∀ l : List Component, (∀ c ∈ l, c ∈ cs) → l.filter (· ≠ .curDir) = l := by
    intro l hl
    exact List.filter_eq_self.mpr fun c hc => by simpa using (hnormal.mem c (hl c hc)).2.2
  rcases root_cases p with hroot | hroot
  · rw [hroot, List.nil_append]
    cases cs with
    | nil => decide
    | cons c cs =>
      obtain ⟨hc, hrest⟩ := List.forall_mem_cons.mp hnormal.proper
      rw [if_neg (by simp), if_neg (by simp), (components_extend_nil hc.1 hrest).2,
        hfilter cs fun c hc => List.mem_cons_of_mem _ hc]
  · rw [hroot, if_neg (by simp), if_neg (by simp), List.singleton_append,
      (components_extend_nil (c := .rootDir) trivial hnormal.proper).2, hfilter cs fun c hc => hc]

theorem normalizeLexical_isAbsolute (p : PathBuf) :
    (normalizeLexical p).isAbsolute = p.isAbsolute := by
  obtain ⟨cs, hnormal, hcs⟩ := components_foldl p
  rw [Bool.eq_iff_iff, isAbsolute_iff, normalizeLexical_components hnormal hcs, root, parts]
  by_cases habs : p.isAbsolute = true
  · simp [habs]
  · rw [if_neg habs, List.nil_append]
    refine iff_of_false (fun hhead => ?_) habs
    split_ifs at hhead
    · cases hhead
    · exact (hnormal.mem _ (List.mem_of_mem_head? hhead)).2.1 rfl

theorem normalizeLexical_inj {p q : PathBuf} :
    normalizeLexical p = normalizeLexical q ↔
      p.components.foldl normalizeStep [] = q.components.foldl normalizeStep [] := by
  constructor
  · intro heq
    obtain ⟨cs, hnormal, hcs⟩ := components_foldl p
    obtain ⟨cs', hnormal', hcs'⟩ := components_foldl q
    have hroot : root p = root q := by
      rw [root, root, ← normalizeLexical_isAbsolute p, heq, normalizeLexical_isAbsolute]
    have hcomponents := congrArg PathBuf.components heq
    rw [normalizeLexical_components hnormal hcs, normalizeLexical_components hnormal' hcs',
      hroot] at hcomponents
    have hmem := curDir_not_mem hnormal
    rw [hroot] at hmem
    have happend := parts_inj hmem (curDir_not_mem hnormal') hcomponents
    rw [hcs, hcs', hroot, List.append_cancel_left happend]
  · intro heq
    rw [normalizeLexical, normalizeLexical, heq]

theorem normalize_inj {p q : PathBuf} :
    normalize p.text = normalize q.text ↔ normalizeLexical p = normalizeLexical q :=
  ⟨congrArg PathBuf.mk, congrArg PathBuf.text⟩

theorem shared_le (as bs : List Component) : shared as bs ≤ as.length := by
  fun_induction shared as bs with
  | case1 as b bs ih => exact Nat.succ_le_succ ih
  | _ => exact Nat.zero_le _

theorem take_shared (as bs : List Component) :
    bs.take (shared as bs) = as.take (shared as bs) := by
  fun_induction shared as bs with
  | case1 as b bs ih => rw [List.take_succ_cons, List.take_succ_cons, ih]
  | _ => rfl

theorem shared_append (cs as bs : List Component) :
    shared (cs ++ as) (cs ++ bs) = cs.length + shared as bs := by
  induction cs with
  | nil => exact (Nat.zero_add _).symm
  | cons c cs ih =>
    rw [List.cons_append, List.cons_append, shared, if_pos rfl, ih, List.length_cons,
      Nat.add_right_comm]

def steps (fromParts toParts : List Component) : List Component :=
  List.replicate (fromParts.length - shared fromParts toParts) .parentDir ++
    toParts.drop (shared fromParts toParts)

theorem steps_append (cs as bs : List Component) : steps (cs ++ as) (cs ++ bs) = steps as bs := by
  rw [steps, steps, shared_append, List.length_append, Nat.add_sub_add_left, List.drop_append]
  simp

theorem foldl_steps {root cs : List Component} (hnormal : Normal root cs) (names : List Str) :
    (steps (names.map .normal) cs).foldl normalizeStep
      ((names.map Component.normal).reverse ++ root) = cs.reverse ++ root := by
  have hle := shared_le (names.map Component.normal) cs
  have htake := take_shared (names.map Component.normal) cs
  rw [steps]
  generalize shared (names.map Component.normal) cs = n at hle htake ⊢
  rw [List.length_map] at hle
  have hback : (List.replicate (names.length - n) Component.parentDir).foldl normalizeStep
      ((names.map Component.normal).reverse ++ root) =
        ((names.take n).map Component.normal).reverse ++ root := by
    have hsplit : (names.map Component.normal).reverse ++ root =
        ((names.drop n).map Component.normal).reverse ++
          (((names.take n).map Component.normal).reverse ++ root) := by
      rw [← List.append_assoc, ← List.reverse_append, ← List.map_append, List.take_append_drop]
    rw [hsplit, ← List.length_drop, foldl_back]
  calc
    _ = (cs.drop n).foldl normalizeStep
          (((names.take n).map Component.normal).reverse ++ root) := by
      rw [List.foldl_append, List.length_map, hback]
    _ = (cs.drop n).foldl normalizeStep ((cs.take n).foldl normalizeStep root) := by
      rw [htake, ← List.map_take, foldl_names]
    _ = cs.reverse ++ root := by
      rw [← List.foldl_append, List.take_append_drop, hnormal.foldl]

theorem foldl_filter (cs out : List Component) :
    (cs.filter (· ≠ .curDir)).foldl normalizeStep out = cs.foldl normalizeStep out := by
  induction cs generalizing out with
  | nil => rfl
  | cons c cs ih =>
    by_cases hc : c = .curDir
    · rw [List.filter_cons_of_neg (by simpa using hc), ih, hc]
      rfl
    · rw [List.filter_cons_of_pos (by simpa using hc), List.foldl_cons, ih, List.foldl_cons]

theorem join_foldl (p q : PathBuf) (hq : q.isAbsolute = false) :
    (p.join q.text).components.foldl normalizeStep [] =
      q.components.foldl normalizeStep (p.components.foldl normalizeStep []) := by
  by_cases hp : p.text = []
  · rw [join_of_nil hp, components_eq p, lead, hp]
    rfl
  · rw [components_join hp hq, List.foldl_append, components_eq q, List.foldl_append, lead]
    split
    · rfl
    · split
      · rename_i hhead
        have habs : q.isAbsolute = true := by
          rw [isAbsolute_iff, components_eq, lead]
          simp_all
        rw [hq] at habs
        cases habs
      · rfl
      · rfl

theorem relativeLexical_foldl {fromPath toPath : PathBuf}
    (hsteps : ∀ c ∈ steps fromPath.components toPath.components, c.Proper ∧ c ≠ .rootDir)
    (out : List Component) :
    (relativeLexical fromPath toPath).isAbsolute = false ∧
      (relativeLexical fromPath toPath).components.foldl normalizeStep out =
        (steps fromPath.components toPath.components).foldl normalizeStep out := by
  have hextend : ∀ cs cs' : List Component,
      (extend ⟨[]⟩ cs).extend cs' = extend ⟨[]⟩ (cs ++ cs') := fun cs cs' => by
    rw [extend, extend, extend, List.foldl_append]
  rw [relativeLexical, hextend, ← steps]
  cases hall : steps fromPath.components toPath.components with
  | nil => exact ⟨rfl, rfl⟩
  | cons c cs =>
    rw [hall] at hsteps
    obtain ⟨⟨hc, hroot⟩, hcs⟩ := List.forall_mem_cons.mp hsteps
    obtain ⟨hne, hcomponents⟩ := components_extend_nil hc hcs
    rw [if_neg hne, hcomponents]
    constructor
    · rw [Bool.eq_false_iff, Ne, isAbsolute_iff, hcomponents, List.head?_cons]
      exact fun heq => hroot (Option.some.inj heq)
    · rw [List.foldl_cons, foldl_filter, List.foldl_cons]

theorem normalize_eq_dot {p : Str} {cs : List Component} (hnormal : Normal (root ⟨p⟩) cs)
    (hcs : (⟨p⟩ : PathBuf).components.foldl normalizeStep [] = cs.reverse ++ root ⟨p⟩) :
    normalize p = ['.'] ↔ root ⟨p⟩ ++ cs = [] := by
  constructor
  · intro hdot
    have hcomponents := normalizeLexical_components hnormal hcs
    have hpath : normalizeLexical ⟨p⟩ = ⟨['.']⟩ := congrArg PathBuf.mk hdot
    rw [hpath] at hcomponents
    exact parts_inj (curDir_not_mem hnormal) (by simp) hcomponents.symm
  · intro hempty
    rw [normalize, normalizeLexical_eq hcs, if_pos hempty]

theorem steps_proper {root cs : List Component} (as : List Component)
    (hroot : root = [] ∨ root = [.rootDir]) (hnormal : Normal root cs) :
    ∀ c ∈ steps (parts (root ++ as)) (parts (root ++ cs)), c.Proper ∧ c ≠ .rootDir := by
  have hdrop : ∀ n, ∀ c ∈ (parts cs).drop n, c.Proper ∧ c ≠ .rootDir := by
    intro n c hc
    have hmem := List.mem_of_mem_drop hc
    rw [parts] at hmem
    split_ifs at hmem
    · rw [List.mem_singleton.mp hmem]
      exact ⟨trivial, by simp⟩
    · exact hnormal.proper c hmem
  have hsteps : ∀ as' cs' : List Component,
      (∀ n, ∀ c ∈ cs'.drop n, c.Proper ∧ c ≠ .rootDir) →
        ∀ c ∈ steps as' cs', c.Proper ∧ c ≠ .rootDir := by
    intro as' cs' hcs' c hc
    rcases List.mem_append.mp hc with hc | hc
    · rw [List.eq_of_mem_replicate hc]
      exact ⟨trivial, by simp⟩
    · exact hcs' _ c hc
  rcases hroot with rfl | rfl
  · exact hsteps _ _ hdrop
  · rw [parts, if_neg (by simp), parts, if_neg (by simp), steps_append]
    exact hsteps _ _ fun n c hc => hnormal.proper c (List.mem_of_mem_drop hc)

theorem foldl_steps_iff {root cs : List Component} (hnormal : Normal root cs) (names : List Str) :
    (steps (parts (root ++ names.map .normal)) (parts (root ++ cs))).foldl normalizeStep
        ((names.map Component.normal).reverse ++ root) = cs.reverse ++ root ↔
      (root ++ names.map Component.normal = [] → root ++ cs = []) := by
  rw [parts, parts]
  by_cases hfrom : root ++ names.map Component.normal = []
  · obtain ⟨rfl, hnil⟩ := List.append_eq_nil_iff.mp hfrom
    obtain rfl := List.map_eq_nil_iff.mp hnil
    by_cases hto : cs = []
    · rw [hto]
      exact iff_of_true rfl fun _ => rfl
    · refine iff_of_false (fun hleads => ?_) fun himp => hto (himp rfl)
      have hsteps : steps [.curDir] cs = .parentDir :: cs := by
        cases cs with
        | nil => exact absurd rfl hto
        | cons c cs =>
          have hne : .curDir ≠ c := ((hnormal.mem c List.mem_cons_self).2.2).symm
          rw [steps, shared, if_neg hne]
          rfl
      rw [if_pos hfrom, List.nil_append, if_neg hto, hsteps] at hleads
      have hlength := congrArg List.length (hnormal.up.foldl.symm.trans hleads)
      simp at hlength
  · rw [if_neg hfrom]
    refine iff_of_true ?_ fun hnil => absurd hnil hfrom
    by_cases hto : root ++ cs = []
    · obtain ⟨rfl, rfl⟩ := List.append_eq_nil_iff.mp hto
      have hshared : shared (names.map Component.normal) [.curDir] = 0 := by
        cases names <;> simp [shared]
      rw [if_pos hto, List.nil_append, steps, hshared, Nat.sub_zero, List.drop_zero,
        List.foldl_append, List.length_map, foldl_back]
      rfl
    · rw [if_neg hto, steps_append, foldl_steps hnormal]

theorem Normal.eq_names {p : PathBuf} {cs : List Component} (hnormal : Normal (root p) cs)
    (hhead : (parts (root p ++ cs)).head? ≠ some .parentDir) :
    ∃ names : List Str, cs = names.map .normal := by
  obtain ⟨k, names, hroot, -⟩ := hnormal
  cases k with
  | zero => exact ⟨names, rfl⟩
  | succ k =>
    rcases hroot with hroot | ⟨-, hk⟩
    · rw [hroot, parts, if_neg (by simp [List.replicate_succ])] at hhead
      exact absurd rfl hhead
    · cases hk

/-- For paths that are both absolute or both relative, where the normal form of the first has no
step up: the first joined with `path.relative` has the normal form of the second, unless the normal
form of the first alone is `.`. -/
theorem relative_leads_iff {fromPath toPath : Str} (habs : isAbsolute fromPath = isAbsolute toPath)
    (hhead : (normalizeLexical ⟨fromPath⟩).components.head? ≠ some .parentDir) :
    normalize (join [fromPath, relative fromPath toPath]) = normalize toPath ↔
      (normalize fromPath = ['.'] → normalize toPath = ['.']) := by
  obtain ⟨as, hfrom, has⟩ := components_foldl ⟨fromPath⟩
  obtain ⟨cs, hto, hcs⟩ := components_foldl ⟨toPath⟩
  have hroot : root ⟨toPath⟩ = root ⟨fromPath⟩ := by
    rw [root, root]
    exact congrArg (fun b : Bool => if b then _ else _) habs.symm
  have hfromParts := normalizeLexical_components hfrom has
  have htoParts := normalizeLexical_components hto hcs
  rw [hfromParts] at hhead
  obtain ⟨names, rfl⟩ := hfrom.eq_names hhead
  rw [normalize_eq_dot hfrom has, normalize_eq_dot hto hcs, hroot]
  rw [hroot] at hto hcs htoParts
  have hproper := steps_proper (names.map .normal) (root_cases _) hto
  rw [← hfromParts, ← htoParts] at hproper
  obtain ⟨hrelative, hsteps⟩ := relativeLexical_foldl hproper
    (((names.map Component.normal).reverse ++ root ⟨fromPath⟩))
  have hsame : ((normalizeLexical ⟨fromPath⟩).isAbsolute !=
      (normalizeLexical ⟨toPath⟩).isAbsolute) = false := by
    rw [normalizeLexical_isAbsolute, normalizeLexical_isAbsolute]
    exact bne_eq_false_iff_eq.mpr habs
  rw [← foldl_steps_iff hto names, ← hfromParts, ← htoParts, ← hsteps, ← hcs, ← has,
    ← join_foldl _ _ hrelative, ← normalizeLexical_inj, relative, hsame,
    if_neg Bool.false_ne_true]
  exact normalize_inj

theorem up_down_leads :
    normalize (join ["a/../b/./c".toList, relative "a/../b/./c".toList "../x".toList]) =
      normalize "../x".toList :=
  (relative_leads_iff (by decide) (by decide)).mpr (by decide)

/-- From `.`, the path to `a` goes a step up first. -/
theorem dot_misled :
    ¬∀ fromPath toPath : Str, isAbsolute fromPath = isAbsolute toPath →
      (normalizeLexical ⟨fromPath⟩).components.head? ≠ some .parentDir →
        normalize (join [fromPath, relative fromPath toPath]) = normalize toPath := by
  intro hall
  have hleads := hall ['.'] ['a'] (by decide) (by decide)
  revert hleads
  decide

end Paths

end Luaml
