import Luaml.Bridge
import Luaml.Json

namespace Luaml

open Rust Serde Lua

namespace Lua.RecM

variable {H α β : Type} {h h' : Heap H} {x : RecM H α} {f : α → RecM H β}

theorem bind_of_ok {a : α} (hx : x h = some (.ok a, h')) : (x >>= f) h = f a h' := by
  change RecM.bind x f h = f a h'
  rw [RecM.bind, hx]

theorem bind_of_error {e : Str} (hx : x h = some (.error e, h')) :
    (x >>= f) h = some (.error e, h') := by
  change RecM.bind x f h = some (.error e, h')
  rw [RecM.bind, hx]

def Approx (x y : RecM H α) : Prop := ∀ h r, x h = some r → y h = some r

theorem Approx.refl (x : RecM H α) : Approx x x := fun _ _ hr => hr

theorem Approx.bind {y : RecM H α} {g : α → RecM H β} (hxy : Approx x y)
    (hfg : ∀ a, Approx (f a) (g a)) : Approx (x >>= f) (y >>= g) := by
  intro h r hr
  change RecM.bind x f h = some r at hr
  change RecM.bind y g h = some r
  rw [RecM.bind] at hr ⊢
  split at hr
  · cases hr
  · rw [hxy _ _ ‹_›]
    exact hfg _ _ _ hr
  · rw [hxy _ _ ‹_›]
    exact hr

/-- The computation returns on this heap, leaves it as it is, and gives what `P` holds of and
nothing else. -/
def Gives (h : Heap H) (x : RecM H α) (P : α → Prop) : Prop :=
  ∃ r, x h = some (r, h) ∧ ∀ a, r = .ok a ↔ P a

theorem Gives.pure (h : Heap H) (a : α) : Gives h (Pure.pure a) fun b => b = a :=
  ⟨.ok a, rfl, fun b => by rw [Except.ok.injEq, eq_comm]⟩

theorem Gives.ofExcept (h : Heap H) (r : Except Str α) : Gives h (ofExcept r) fun a => r = .ok a :=
  ⟨r, rfl, fun _ => Iff.rfl⟩

theorem Gives.lift {y : LuaM H α} {a : α} (hy : y h = (.ok a, h)) :
    Gives h (lift y) fun b => b = a :=
  ⟨.ok a, congrArg some hy, fun b => by rw [Except.ok.injEq, eq_comm]⟩

theorem Gives.bind {P : α → Prop} {Q : α → β → Prop} (hx : Gives h x P)
    (hf : ∀ a, P a → Gives h (f a) (Q a)) : Gives h (x >>= f) fun b => ∃ a, P a ∧ Q a b := by
  obtain ⟨r, hr, hP⟩ := hx
  cases r with
  | error e =>
    refine ⟨.error e, bind_of_error hr, fun b => ?_⟩
    constructor
    · intro heq
      cases heq
    · rintro ⟨a, ha, -⟩
      cases (hP a).mpr ha
  | ok a =>
    obtain ⟨r', hr', hQ⟩ := hf a ((hP a).mp rfl)
    refine ⟨r', (bind_of_ok hr).trans hr', fun b => ?_⟩
    rw [hQ b]
    constructor
    · exact fun hb => ⟨a, (hP a).mp rfl, hb⟩
    · rintro ⟨a', ha', hb⟩
      obtain rfl := Except.ok.inj ((hP a').mpr ha')
      exact hb

theorem Gives.of_ok {Q : β → Prop} {a : α} (hx : x h = some (.ok a, h)) (hf : Gives h (f a) Q) :
    Gives h (x >>= f) Q := by
  obtain ⟨r, hr, hQ⟩ := hf
  exact ⟨r, (bind_of_ok hx).trans hr, hQ⟩

theorem Gives.of_error {Q : α → Prop} {e : Str} (hx : x h = some (.error e, h))
    (hQ : ∀ a, ¬Q a) : Gives h x Q := by
  refine ⟨.error e, hx, fun a => iff_of_false (fun heq => ?_) (hQ a)⟩
  cases heq

theorem Gives.mono {y : RecM H α} {P : α → Prop} (hxy : Approx x y) (hx : Gives h x P) :
    Gives h y P := by
  obtain ⟨r, hr, hP⟩ := hx
  exact ⟨r, hxy _ _ hr, hP⟩

theorem Gives.congr {P Q : α → Prop} (hx : Gives h x P) (hPQ : ∀ a, P a ↔ Q a) : Gives h x Q := by
  obtain ⟨r, hr, hP⟩ := hx
  exact ⟨r, hr, fun a => (hP a).trans (hPQ a)⟩

/-- Where the computation succeeds on this heap, it leaves it as it is, and `P` holds of what it
gives. -/
def Ensures (h : Heap H) (x : RecM H α) (P : α → Prop) : Prop :=
  ∀ a h', x h = some (.ok a, h') → h' = h ∧ P a

theorem Gives.ensures {P : α → Prop} (hx : Gives h x P) : Ensures h x P := by
  obtain ⟨r, hr, hP⟩ := hx
  intro a h' ha
  rw [hr] at ha
  obtain ⟨rfl, rfl⟩ := Prod.mk.inj (Option.some.inj ha)
  exact ⟨rfl, (hP a).mp rfl⟩

theorem Ensures.pure {P : α → Prop} {a : α} (ha : P a) : Ensures h (Pure.pure a) P := by
  rintro b h' hb
  cases hb
  exact ⟨rfl, ha⟩

theorem Ensures.bind {P : α → Prop} {Q : β → Prop} (hx : Ensures h x P)
    (hf : ∀ a, P a → Ensures h (f a) Q) : Ensures h (x >>= f) Q := by
  intro b h' hb
  change RecM.bind x f h = some (.ok b, h') at hb
  rw [RecM.bind] at hb
  split at hb
  · cases hb
  · rename_i a h₁ ha
    obtain ⟨rfl, hP⟩ := hx a h₁ ha
    exact hf a hP b h' hb
  · cases hb

end Lua.RecM

namespace Json

open RecM

variable {H : Type} {texts : Texts} {vm : Vm H} {h : Heap H} {t : Ref}
  {entries : List (LuaValue × LuaValue)} {metatable : Option Ref}

section

variable {convert convert' : LuaValue → RecM H JsonValue}

theorem encodeItems_approx (happrox : ∀ v, Approx (convert v) (convert' v)) (t : Ref) (n : Nat)
    (i : Int64) : Approx (encodeItems vm convert t n i) (encodeItems vm convert' t n i) := by
  induction n generalizing i with
  | zero => exact .refl _
  | succ n ih =>
    refine .bind (.refl _) fun v => .bind (happrox v) fun item => ?_
    exact .bind (ih (i + 1)) fun items => .refl _

theorem encodeMembers_approx (happrox : ∀ v, Approx (convert v) (convert' v))
    (pairs : List (LuaValue × LuaValue)) (obj : List (Str × JsonValue)) :
    Approx (encodeMembers texts convert pairs obj) (encodeMembers texts convert' pairs obj) := by
  induction pairs generalizing obj with
  | nil => exact .refl _
  | cons e pairs ih =>
    obtain ⟨k, v⟩ := e
    exact .bind (.refl _) fun key => .bind (happrox v) fun value => ih _

theorem luaTableToJson_approx (happrox : ∀ v, Approx (convert v) (convert' v)) (t : Ref) :
    Approx (luaTableToJson texts vm convert t) (luaTableToJson texts vm convert' t) := by
  refine .bind (.refl _) fun entries => .bind (.refl _) fun shape => ?_
  dsimp only
  split
  · exact .refl _
  · split
    · exact .refl _
    · split
      · exact .bind (encodeItems_approx happrox t _ _) fun out => .refl _
      · exact .bind (encodeMembers_approx happrox _ _) fun obj => .refl _

end

theorem luaToJson_approx_succ (n : Nat) (v : LuaValue) :
    Approx (luaToJson texts vm n v) (luaToJson texts vm (n + 1) v) := by
  induction n generalizing v with
  | zero =>
    intro h r hr
    cases hr
  | succ n ih =>
    cases v with
    | table t => exact luaTableToJson_approx ih t
    | _ => exact .refl _

theorem luaToJson_approx {n m : Nat} (hle : n ≤ m) (v : LuaValue) :
    Approx (luaToJson texts vm n v) (luaToJson texts vm m v) := by
  induction m, hle using Nat.le_induction with
  | base => exact .refl _
  | succ m _ ih => exact fun h r hr => luaToJson_approx_succ m v h r (ih h r hr)

variable {convert : LuaValue → RecM H JsonValue} {P : LuaValue → JsonValue → Prop}

theorem encodeItems_gives (ht : h[t]? = some (.table entries metatable)) {n : Nat} {i : Int64}
    (hpresent : ∀ k < n, rawGet entries (.integer (i + Int64.ofNat k)) ≠ .nil)
    (hconvert : ∀ k < n, Gives h (convert (rawGet entries (.integer (i + Int64.ofNat k))))
      (P (rawGet entries (.integer (i + Int64.ofNat k))))) :
    Gives h (encodeItems vm convert t n i) fun items => items.length = n ∧
      ∀ k item, items[k]? = some item → P (rawGet entries (.integer (i + Int64.ofNat k))) item := by
  induction n generalizing i with
  | zero =>
    refine (Gives.pure h []).congr fun items => ?_
    constructor
    · rintro rfl
      exact ⟨rfl, by simp⟩
    · exact fun hitems => List.length_eq_zero_iff.mp hitems.1
  | succ n ih =>
    have hzero : i + Int64.ofNat 0 = i := Int64.add_zero i
    have hfirst := hpresent 0 n.succ_pos
    have hvalue := hconvert 0 n.succ_pos
    rw [hzero] at hfirst hvalue
    have hget : Lua.get vm t (.integer i) h = (.ok (rawGet entries (.integer i)), h) :=
      get_eq ht fun hnil => absurd hnil hfirst
    have hrest := ih (i := i + 1)
      (fun k hk => next_index i k ▸ hpresent (k + 1) (Nat.succ_lt_succ hk))
      (fun k hk => next_index i k ▸ hconvert (k + 1) (Nat.succ_lt_succ hk))
    refine Gives.congr (.bind (.lift hget) fun v hv => .bind (hv ▸ hvalue) fun item _ =>
      .bind hrest fun items _ => .pure h (item :: items)) fun all => ?_
    constructor
    · rintro ⟨v, rfl, item, hitem, items, ⟨hlen, hitems⟩, rfl⟩
      refine ⟨congrArg (· + 1) hlen, fun k => ?_⟩
      cases k with
      | zero =>
        rintro item' heq
        obtain rfl := Option.some.inj heq
        rwa [hzero]
      | succ k =>
        rw [next_index]
        exact hitems k
    · rintro ⟨hlen, hall⟩
      obtain ⟨item, items, rfl⟩ := List.exists_cons_of_length_eq_add_one hlen
      refine ⟨_, rfl, item, hzero ▸ hall 0 item rfl, items, ⟨Nat.succ.inj hlen, ?_⟩, rfl⟩
      exact fun k item' hk => next_index i k ▸ hall (k + 1) item' hk

theorem encodeMembers_gives {pairs : List (LuaValue × LuaValue)}
    (hconvert : ∀ e ∈ pairs, Gives h (convert e.2) (P e.2)) (obj : List (Str × JsonValue)) :
    Gives h (encodeMembers texts convert pairs obj) fun obj' => ∃ added,
      List.Forall₂ (fun e a => e.1 = .string a.1 ∧ P e.2 a.2) pairs added ∧
        obj' = BTreeMap.extend Str.cmp obj added := by
  induction pairs generalizing obj with
  | nil =>
    refine (Gives.pure h obj).congr fun obj' => ?_
    constructor
    · rintro rfl
      exact ⟨[], .nil, rfl⟩
    · rintro ⟨added, hadded, rfl⟩
      cases hadded
      rfl
  | cons e pairs ih =>
    obtain ⟨k, v⟩ := e
    rw [List.forall_mem_cons] at hconvert
    refine Gives.congr (.bind (.ofExcept h (objectKey texts k)) fun key _ =>
      .bind hconvert.1 fun value _ => ih hconvert.2 _) fun obj' => ?_
    have hkey : ∀ key, objectKey texts k = .ok key ↔ k = .string key := by
      intro key
      cases k <;> simp [objectKey]
    constructor
    · rintro ⟨key, hk, value, hvalue, added, hadded, rfl⟩
      exact ⟨(key, value) :: added, .cons ⟨(hkey key).mp hk, hvalue⟩ hadded, rfl⟩
    · rintro ⟨all, hall, rfl⟩
      cases hall with
      | @cons _ a _ added hfirst hadded =>
        exact ⟨a.1, (hkey a.1).mpr hfirst.1, a.2, hfirst.2, added, hadded, rfl⟩

theorem encodeItems_ensures {Q : LuaValue → Prop} (ht : h[t]? = some (.table entries metatable))
    {n : Nat} {i : Int64}
    (hpresent : ∀ k < n, rawGet entries (.integer (i + Int64.ofNat k)) ≠ .nil)
    (hconvert : ∀ k < n, Ensures h (convert (rawGet entries (.integer (i + Int64.ofNat k))))
      fun _ => Q (rawGet entries (.integer (i + Int64.ofNat k)))) :
    Ensures h (encodeItems vm convert t n i) fun _ =>
      ∀ k < n, Q (rawGet entries (.integer (i + Int64.ofNat k))) := by
  induction n generalizing i with
  | zero => exact .pure fun k hk => absurd hk k.not_lt_zero
  | succ n ih =>
    have hzero : i + Int64.ofNat 0 = i := Int64.add_zero i
    have hfirst := hpresent 0 n.succ_pos
    have hvalue := hconvert 0 n.succ_pos
    rw [hzero] at hfirst hvalue
    have hget : Lua.get vm t (.integer i) h = (.ok (rawGet entries (.integer i)), h) :=
      get_eq ht fun hnil => absurd hnil hfirst
    have hrest := ih (i := i + 1)
      (fun k hk => next_index i k ▸ hpresent (k + 1) (Nat.succ_lt_succ hk))
      (fun k hk => next_index i k ▸ hconvert (k + 1) (Nat.succ_lt_succ hk))
    refine .bind (Gives.lift hget).ensures fun v hv => .bind (hv ▸ hvalue) fun item hitem =>
      .bind hrest fun items hitems => .pure fun k hk => ?_
    cases k with
    | zero => rwa [hzero, ← hv]
    | succ k =>
      rw [next_index]
      exact hitems k (Nat.lt_of_succ_lt_succ hk)

theorem encodeMembers_ensures {Q : LuaValue → Prop} {pairs : List (LuaValue × LuaValue)}
    (hconvert : ∀ e ∈ pairs, Ensures h (convert e.2) fun _ => Q e.2)
    (obj : List (Str × JsonValue)) :
    Ensures h (encodeMembers texts convert pairs obj) fun _ => ∀ e ∈ pairs, Q e.2 := by
  induction pairs generalizing obj with
  | nil => exact .pure (by simp)
  | cons e pairs ih =>
    obtain ⟨k, v⟩ := e
    rw [List.forall_mem_cons] at hconvert
    refine .bind (Gives.ofExcept h (objectKey texts k)).ensures fun key _ =>
      .bind hconvert.1 fun value hvalue => ?_
    intro obj' h' hobj
    obtain ⟨rfl, hall⟩ := ih hconvert.2 _ obj' h' hobj
    exact ⟨rfl, List.forall_mem_cons.mpr ⟨hvalue, hall⟩⟩

end Json

end Luaml
