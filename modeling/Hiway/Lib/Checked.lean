import Mathlib.Tactic

/-!
# Arithmetic that can panic

A program whose machine arithmetic is checked either returns a value or panics.
`Exec α` is such a computation. The width of the machine word is a parameter
(`Target`), so nothing below depends on a particular platform.

* `bind_eq_ok`: a computation that returns is taken apart into steps that returned.
* `steps_invariant`: an invariant under which every step returns holds at the end of every
  run, and every run returns.
* `steps_preserves`: what every step that returns preserves holds at the end of every run
  that returns.
* `trace_eq`: two machines that stay related while they give the same answers give the same
  answers throughout.
-/

/-- Why a computation stopped without a value. -/
inductive Panic where
  | overflow
  | unwrap
  | unreachable
  | bounds
  | divisor
  | assertion
  deriving DecidableEq, Repr

/-- A computation that may panic. -/
abbrev Exec (α : Type) := Except Panic α

/-- The width of an address-sized word. -/
class Target where
  usizeBits : Nat
  bits_ge : 16 ≤ usizeBits
  bits_le : usizeBits ≤ 64

namespace Target

/-- A 64-bit platform. -/
abbrev x64 : Target := ⟨64, by decide, by decide⟩

variable [Target]

def usizeMax : Nat := 2 ^ usizeBits - 1

def isizeMax : Nat := 2 ^ (usizeBits - 1) - 1

theorem usizeMax_ge : 65535 ≤ usizeMax := by
  have h : 2 ^ 16 ≤ 2 ^ usizeBits := Nat.pow_le_pow_right (by omega) bits_ge
  unfold usizeMax
  omega

theorem isizeMax_lt_usizeMax : isizeMax < usizeMax := by
  have hb := bits_ge
  have h : 2 ^ usizeBits = 2 * 2 ^ (usizeBits - 1) := by
    rw [← Nat.pow_succ']
    congr 1
    omega
  have hpos : 0 < 2 ^ (usizeBits - 1) := Nat.two_pow_pos _
  unfold isizeMax usizeMax
  omega

/-- Narrowing a value to an address-sized word discards its high bits. -/
def asUsize (n : Nat) : Nat := n % (usizeMax + 1)

theorem asUsize_of_le {n : Nat} (h : n ≤ usizeMax) : asUsize n = n :=
  Nat.mod_eq_of_lt (Nat.lt_succ_of_le h)

/-- Addition that reports an unrepresentable sum. -/
def checkedAdd (a b : Nat) : Option Nat :=
  if a + b ≤ usizeMax then some (a + b) else none

theorem checkedAdd_eq_some {a b c : Nat} :
    checkedAdd a b = some c ↔ a + b ≤ usizeMax ∧ c = a + b := by
  unfold checkedAdd
  split <;> simp_all [eq_comm]

end Target

/-- The largest 64-bit word. -/
def u64Max : Nat := 2 ^ 64 - 1

/-- The largest 32-bit word. -/
def u32Max : Nat := 2 ^ 32 - 1

namespace Exec

/-- Plain subtraction panics below zero. -/
def sub (a b : Nat) : Exec Nat := if b ≤ a then .ok (a - b) else .error .overflow

/-- Plain addition panics above the word size. -/
def add [Target] (a b : Nat) : Exec Nat :=
  if a + b ≤ Target.usizeMax then .ok (a + b) else .error .overflow

/-- Taking a value that has to be there. -/
def unwrap {α : Type} : Option α → Exec α
  | some a => .ok a
  | none => .error .unwrap

/-- Addition on 64-bit words panics above their maximum. -/
def addU64 (a b : Nat) : Exec Nat := if a + b ≤ u64Max then .ok (a + b) else .error .overflow

/-- The remainder panics for a zero divisor. -/
def rem (a b : Nat) : Exec Nat := if b = 0 then .error .divisor else .ok (a % b)

/-- Indexing panics out of bounds. -/
def index {α : Type} (xs : List α) (i : Nat) : Exec α :=
  match xs[i]? with
  | some a => .ok a
  | none => .error .bounds

/-- An assertion that has to hold. -/
def assert (p : Prop) [Decidable p] : Exec Unit := if p then .ok () else .error .assertion

@[simp] theorem sub_of_le {a b : Nat} (h : b ≤ a) : sub a b = .ok (a - b) := if_pos h

theorem sub_eq_ok {a b c : Nat} : sub a b = .ok c ↔ b ≤ a ∧ c = a - b := by
  unfold sub
  split <;> simp_all [eq_comm]

@[simp] theorem add_of_le [Target] {a b : Nat} (h : a + b ≤ Target.usizeMax) :
    add a b = .ok (a + b) := if_pos h

theorem add_eq_ok [Target] {a b c : Nat} :
    add a b = .ok c ↔ a + b ≤ Target.usizeMax ∧ c = a + b := by
  unfold add
  split <;> simp_all [eq_comm]

@[simp] theorem addU64_of_le {a b : Nat} (h : a + b ≤ u64Max) : addU64 a b = .ok (a + b) := if_pos h

@[simp] theorem rem_of_pos {a b : Nat} (h : 0 < b) : rem a b = .ok (a % b) :=
  if_neg (Nat.pos_iff_ne_zero.mp h)

theorem index_of_getElem? {α : Type} {xs : List α} {i : Nat} {a : α} (h : xs[i]? = some a) :
    index xs i = .ok a := by
  simp [index, h]

@[simp] theorem unwrap_some {α : Type} (a : α) : unwrap (some a) = .ok a := rfl

@[simp] theorem ok_bind {α β : Type} (a : α) (f : α → Exec β) :
    ((.ok a : Exec α) >>= f) = f a := rfl

@[simp] theorem pure_eq {α : Type} (a : α) : (pure a : Exec α) = .ok a := rfl

/-- A bind that returns has a first step that returned, whatever the errors are. -/
theorem except_bind_eq_ok {ε α β : Type} {x : Except ε α} {f : α → Except ε β} {b : β} :
    (x >>= f) = .ok b ↔ ∃ a, x = .ok a ∧ f a = .ok b := by
  cases x with
  | error e =>
    constructor
    · intro h
      cases h
    · rintro ⟨a, h, -⟩
      cases h
  | ok a =>
    constructor
    · intro h
      exact ⟨a, rfl, h⟩
    · rintro ⟨a', h, hf⟩
      cases h
      exact hf

theorem bind_eq_ok {α β : Type} {x : Exec α} {f : α → Exec β} {b : β} :
    (x >>= f) = .ok b ↔ ∃ a, x = .ok a ∧ f a = .ok b :=
  except_bind_eq_ok

theorem except_forM_eq_ok {ε α : Type} {l : List α} {f : α → Except ε Unit} :
    l.forM f = .ok () ↔ ∀ a ∈ l, f a = .ok () := by
  induction l with
  | nil => exact ⟨nofun, fun _ => rfl⟩
  | cons a rest ih =>
    change (f a >>= fun _ => rest.forM f) = .ok () ↔ _
    rw [except_bind_eq_ok, List.forall_mem_cons, ← ih]
    constructor
    · rintro ⟨u, ha, hrest⟩
      exact ⟨ha, hrest⟩
    · rintro ⟨ha, hrest⟩
      exact ⟨(), ha, hrest⟩

/-! ## Runs -/

/-- Runs a machine over its inputs, one after the other. -/
def steps {σ ι : Type} (step : σ → ι → Exec σ) : σ → List ι → Exec σ
  | s, [] => .ok s
  | s, i :: rest => do
    let s ← step s i
    steps step s rest

/-- One run after another. -/
theorem steps_append {σ ι : Type} {step : σ → ι → Exec σ} {s t u : σ} {is js : List ι}
    (h : steps step s is = .ok t) (h' : steps step t js = .ok u) :
    steps step s (is ++ js) = .ok u := by
  induction is generalizing s with
  | nil =>
    cases h
    exact h'
  | cons i rest ih =>
    obtain ⟨s', hs', h⟩ := bind_eq_ok.mp h
    simp only [List.cons_append, steps, hs', ok_bind, ih h]

/-- An invariant under which every step returns holds at the end of every run, and
every run returns. -/
theorem steps_invariant {σ ι : Type} {step : σ → ι → Exec σ} {P : σ → Prop}
    (hstep : ∀ s i, P s → ∃ s', step s i = .ok s' ∧ P s') {s : σ} (hs : P s) (is : List ι) :
    ∃ s', steps step s is = .ok s' ∧ P s' := by
  induction is generalizing s with
  | nil => exact ⟨s, rfl, hs⟩
  | cons i rest ih =>
    obtain ⟨s₁, h₁, hs₁⟩ := hstep s i hs
    obtain ⟨s₂, h₂, hs₂⟩ := ih hs₁
    exact ⟨s₂, by simp only [steps, h₁, ok_bind, h₂], hs₂⟩

/-- What every step that returns preserves holds at the end of every run that returns. -/
theorem steps_preserves {σ ι : Type} {step : σ → ι → Exec σ} {P : σ → Prop}
    (hstep : ∀ s i s', P s → step s i = .ok s' → P s') {s s' : σ} (hs : P s) {is : List ι}
    (h : steps step s is = .ok s') : P s' := by
  induction is generalizing s with
  | nil =>
    cases h
    exact hs
  | cons i rest ih =>
    obtain ⟨s₁, h₁, hrest⟩ := bind_eq_ok.mp h
    exact ih (hstep s i s₁ hs h₁) hrest

/-- What a machine answers to its inputs, one after the other. -/
def trace {σ ι ο : Type} (step : σ → ι → Exec (ο × σ)) : σ → List ι → Exec (List ο)
  | _, [] => .ok []
  | s, i :: rest => do
    let (o, s) ← step s i
    let os ← trace step s rest
    return o :: os

/-- Two machines that stay related while they give the same answers give the same
answers throughout, and neither panics. -/
theorem trace_eq {σ τ ι ο : Type} {step : σ → ι → Exec (ο × σ)} {step' : τ → ι → Exec (ο × τ)}
    {R : σ → τ → Prop} {Q : ι → Prop}
    (hstep : ∀ s t i, R s t → Q i →
      ∃ o s' t', step s i = .ok (o, s') ∧ step' t i = .ok (o, t') ∧ R s' t')
    {s : σ} {t : τ} (h : R s t) {is : List ι} (his : ∀ i ∈ is, Q i) :
    ∃ os, trace step s is = .ok os ∧ trace step' t is = .ok os := by
  induction is generalizing s t with
  | nil => exact ⟨[], rfl, rfl⟩
  | cons i rest ih =>
    obtain ⟨o, s', t', hs, ht, hr⟩ := hstep s t i h (his i List.mem_cons_self)
    obtain ⟨os, hos, hos'⟩ := ih hr fun j hj => his j (List.mem_cons_of_mem i hj)
    exact ⟨o :: os, by simp only [trace, hs, ok_bind, hos, pure_eq],
      by simp only [trace, ht, ok_bind, hos', pure_eq]⟩

/-- A computed result that satisfies a test. -/
theorem of_any {α : Type} {x : Exec α} {p : α → Bool} (h : x.toOption.any p = true) :
    ∃ a, x = .ok a ∧ p a = true := by
  cases x with
  | error e => cases h
  | ok a => exact ⟨a, rfl, h⟩

end Exec
