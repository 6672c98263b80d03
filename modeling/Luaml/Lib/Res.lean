import Mathlib.Data.List.Forall2

universe u v w t

namespace Rust

inductive Panic
  | index | slice | overflow | recursion
  deriving DecidableEq, Repr

inductive Res (ε : Type u) (α : Type v)
  | ok (value : α)
  | err (error : ε)
  | panic (cause : Panic)
  deriving DecidableEq, Repr

namespace Res

variable {ε : Type u} {ε' : Type w} {α β : Type v} {γ δ : Type t}

def bind : Res ε α → (α → Res ε β) → Res ε β
  | .ok a, f => f a
  | .err e, _ => .err e
  | .panic c, _ => .panic c

instance : Monad (Res ε : Type v → Type (max u v)) where
  pure := .ok
  bind := bind

def mapErr (f : ε → ε') : Res ε α → Res ε' α
  | .ok a => .ok a
  | .err e => .err (f e)
  | .panic c => .panic c

def toOption : Res ε α → Option α
  | .ok a => some a
  | .err _ => none
  | .panic _ => none

theorem toOption_eq_some {r : Res ε α} {a : α} : r.toOption = some a ↔ r = .ok a := by
  cases r <;> simp [toOption]

@[simp] theorem pure_eq (a : α) : (pure a : Res ε α) = .ok a := rfl
@[simp] theorem ok_bind (a : α) (f : α → Res ε β) : (Res.ok a >>= f) = f a := rfl
@[simp] theorem err_bind (e : ε) (f : α → Res ε β) : (Res.err e >>= f) = .err e := rfl
@[simp] theorem panic_bind (c : Panic) (f : α → Res ε β) : (Res.panic c >>= f) = .panic c := rfl
@[simp] theorem mapErr_ok (f : ε → ε') (a : α) : (Res.ok a : Res ε α).mapErr f = .ok a := rfl
@[simp] theorem mapErr_err (f : ε → ε') (e : ε) : (Res.err e : Res ε α).mapErr f = .err (f e) := rfl
@[simp] theorem mapErr_panic (f : ε → ε') (c : Panic) :
    (Res.panic c : Res ε α).mapErr f = .panic c := rfl

def Returns (r : Res ε α) : Prop := ∀ c, r ≠ .panic c

@[simp] theorem returns_ok (a : α) : (Res.ok a : Res ε α).Returns := by simp [Returns]
@[simp] theorem returns_err (e : ε) : (Res.err e : Res ε α).Returns := by simp [Returns]
@[simp] theorem not_returns_panic (c : Panic) : ¬(Res.panic c : Res ε α).Returns := by
  simp [Returns]

@[simp] theorem returns_mapErr (f : ε → ε') (r : Res ε α) :
    (r.mapErr f).Returns ↔ r.Returns := by
  cases r <;> simp [Returns]

theorem returns_bind {r : Res ε α} {f : α → Res ε β} :
    (r >>= f).Returns ↔ r.Returns ∧ ∀ a, r = .ok a → (f a).Returns := by
  cases r <;> simp

theorem bind_eq_ok {r : Res ε α} {f : α → Res ε β} {b : β} :
    (r >>= f) = .ok b ↔ ∃ a, r = .ok a ∧ f a = .ok b := by
  cases r <;> simp

/-- `iter.map(f).collect::<Result<Vec<_>, _>>()`: left to right, up to the first failure. -/
def collect (f : γ → Res ε α) : List γ → Res ε (List α)
  | [] => .ok []
  | x :: xs => do
    let a ← f x
    let as ← collect f xs
    pure (a :: as)

@[simp] theorem collect_nil (f : γ → Res ε α) : collect f [] = .ok [] := rfl

theorem collect_cons (f : γ → Res ε α) (x : γ) (xs : List γ) :
    collect f (x :: xs) = f x >>= fun a => collect f xs >>= fun as => .ok (a :: as) := rfl

theorem collect_eq_ok {f : γ → Res ε α} {xs : List γ} {as : List α} :
    collect f xs = .ok as ↔ List.Forall₂ (fun x a => f x = .ok a) xs as := by
  induction xs generalizing as with
  | nil => simp [eq_comm]
  | cons x xs ih =>
    rw [collect_cons, bind_eq_ok, List.forall₂_cons_left_iff]
    simp only [bind_eq_ok, ih, Res.ok.injEq]
    constructor
    · rintro ⟨a, ha, as', has, rfl⟩
      exact ⟨a, as', ha, has, rfl⟩
    · rintro ⟨a, as', ha, has, rfl⟩
      exact ⟨a, ha, as', has, rfl⟩

theorem exists_of_forall₂ {ζ : Type w} {R : γ → ζ → Prop} {xs : List γ} {ys : List ζ}
    (h : List.Forall₂ R xs ys) {x : γ} (hx : x ∈ xs) : ∃ y ∈ ys, R x y := by
  induction h with
  | nil => simp at hx
  | @cons a b _ _ hab _ ih =>
    rcases List.mem_cons.mp hx with rfl | hx
    · exact ⟨b, List.mem_cons_self .., hab⟩
    · obtain ⟨y, hy, hR⟩ := ih hx
      exact ⟨y, List.mem_cons_of_mem _ hy, hR⟩

theorem forall₂_of_collect {f : γ → Res ε α} {xs : List γ} {as : List α} {P : γ → α → Prop}
    (h : collect f xs = .ok as) (hP : ∀ x ∈ xs, ∀ a, f x = .ok a → P x a) :
    List.Forall₂ P xs as := by
  induction xs generalizing as with
  | nil =>
    obtain rfl := Res.ok.inj h
    exact .nil
  | cons x xs ih =>
    obtain ⟨a, ha, h⟩ := bind_eq_ok.mp h
    obtain ⟨as', has, h⟩ := bind_eq_ok.mp h
    obtain rfl := Res.ok.inj h
    obtain ⟨hx, hxs⟩ := List.forall_mem_cons.mp hP
    exact .cons (hx a ha) (ih has hxs)

theorem collect_map (f : γ → Res ε α) (g : δ → γ) (xs : List δ) :
    collect f (xs.map g) = collect (fun x => f (g x)) xs := by
  induction xs with
  | nil => rfl
  | cons x xs ih => simp only [List.map_cons, collect_cons, ih]

theorem collect_congr {f g : γ → Res ε α} {xs : List γ} (h : ∀ x ∈ xs, f x = g x) :
    collect f xs = collect g xs := by
  induction xs with
  | nil => rfl
  | cons x xs ih =>
    rw [collect_cons, collect_cons, h x (by simp), ih fun y hy => h y (by simp [hy])]

/-- Calling `f` on one argument after the other until a call fails, every call returns. -/
def ReturnsEach (f : γ → Res ε α) : List γ → Prop
  | [] => True
  | x :: xs => (f x).Returns ∧ ∀ a, f x = .ok a → ReturnsEach f xs

theorem returns_collect {f : γ → Res ε α} {xs : List γ} :
    (collect f xs).Returns ↔ ReturnsEach f xs := by
  induction xs with
  | nil => simp [ReturnsEach]
  | cons x xs ih =>
    rw [collect_cons, returns_bind, ReturnsEach]
    refine and_congr_right fun _ => forall₂_congr fun a _ => ?_
    rw [returns_bind, ih]
    simp

theorem returnsEach_iff {f : γ → Res ε α} {xs : List γ} :
    ReturnsEach f xs ↔
      ∀ pre x post, xs = pre ++ x :: post → (∀ y ∈ pre, ∃ a, f y = .ok a) → (f x).Returns := by
  induction xs with
  | nil => simp [ReturnsEach]
  | cons x xs ih =>
    constructor
    · rintro ⟨hx, hxs⟩ pre y post h hpre
      cases pre with
      | nil =>
        obtain ⟨rfl, -⟩ := List.cons.inj h
        exact hx
      | cons z pre =>
        obtain ⟨rfl, htl⟩ := List.cons.inj h
        obtain ⟨a, ha⟩ := hpre x (by simp)
        exact ih.mp (hxs a ha) pre y post htl fun w hw => hpre w (by simp [hw])
    · intro h
      refine ⟨h [] x xs rfl (by simp), fun a ha => ih.mpr fun pre y post hxs hpre => ?_⟩
      refine h (x :: pre) y post (by simp [hxs]) fun w hw => ?_
      rcases List.mem_cons.mp hw with rfl | hw
      · exact ⟨a, ha⟩
      · exact hpre w hw

theorem returnsEach_map (f : γ → Res ε α) (g : δ → γ) (xs : List δ) :
    ReturnsEach f (xs.map g) ↔ ReturnsEach (fun x => f (g x)) xs := by
  rw [← returns_collect, ← returns_collect, collect_map]

theorem returnsEach_bind_ok {f : γ → Res ε α} {g : γ → α → β} {xs : List γ} :
    ReturnsEach (fun x => f x >>= fun a => .ok (g x a)) xs ↔ ReturnsEach f xs := by
  induction xs with
  | nil => rfl
  | cons x xs ih =>
    rw [ReturnsEach, ReturnsEach, ih]
    cases f x <;> simp

def Fails (P : ε → Prop) (r : Res ε α) : Prop := ∀ e, r = .err e → P e

variable {P : ε → Prop}

@[simp] theorem fails_ok (a : α) : Fails P (.ok a : Res ε α) := by simp [Fails]
@[simp] theorem fails_panic (c : Panic) : Fails P (.panic c : Res ε α) := by simp [Fails]
@[simp] theorem fails_err {e : ε} : Fails P (.err e : Res ε α) ↔ P e := by simp [Fails]

theorem Fails.bind {r : Res ε α} {f : α → Res ε β} (hr : Fails P r) (hf : ∀ a, Fails P (f a)) :
    Fails P (r >>= f) := by
  cases r with
  | ok a => exact hf a
  | err e => exact fails_err.mpr (hr e rfl)
  | panic c => exact fails_panic c

theorem Fails.collect {f : γ → Res ε α} {xs : List γ} (hf : ∀ x, Fails P (f x)) :
    Fails P (collect f xs) := by
  induction xs with
  | nil => exact fails_ok _
  | cons x xs ih => exact (hf x).bind fun a => ih.bind fun as => fails_ok _

def all (f : γ → Res ε Bool) : List γ → Res ε Bool
  | [] => .ok true
  | x :: xs => f x >>= fun b => if b then all f xs else .ok false

def any (f : γ → Res ε Bool) : List γ → Res ε Bool
  | [] => .ok false
  | x :: xs => f x >>= fun b => if b then .ok true else any f xs

@[simp] theorem all_nil (f : γ → Res ε Bool) : all f [] = .ok true := rfl
@[simp] theorem any_nil (f : γ → Res ε Bool) : any f [] = .ok false := rfl

theorem all_append (f : γ → Res ε Bool) (xs ys : List γ) :
    all f (xs ++ ys) = all f xs >>= fun b => if b then all f ys else .ok false := by
  induction xs with
  | nil => rfl
  | cons x xs ih =>
    rw [List.cons_append, all, all, ih]
    cases f x with
    | ok b => cases b <;> rfl
    | err e => rfl
    | panic c => rfl

theorem any_eq_true_cons {f : γ → Res ε Bool} {x : γ} {xs : List γ} :
    any f (x :: xs) = .ok true ↔ f x = .ok true ∨ f x = .ok false ∧ any f xs = .ok true := by
  rw [any]
  cases f x with
  | ok b => cases b <;> simp
  | err e => simp
  | panic c => simp

theorem any_eq_false {f : γ → Res ε Bool} {xs : List γ} :
    any f xs = .ok false ↔ ∀ x ∈ xs, f x = .ok false := by
  induction xs with
  | nil => simp
  | cons x xs ih =>
    rw [any, List.forall_mem_cons, ← ih]
    cases f x with
    | ok b => cases b <;> simp
    | err e => simp
    | panic c => simp

end Res

end Rust
