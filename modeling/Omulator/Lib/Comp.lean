import Mathlib.Logic.Basic
import Mathlib.Tactic.Common

/-!
# Computations with state, exceptions and bounded recursion

A computation over a state `σ` either runs out of fuel (`none`), throws an
exception or returns; the state it leaves behind survives a throw. Recursion is
open: a body refers to itself through an argument, and `fix` ties the knot with
as many unfoldings as there is fuel. Properties of the fixpoint are proved
about one unfolding of the body.
-/

namespace Omulator.Lib

abbrev Comp (σ ε α : Type) := σ → Option (Except ε α × σ)

namespace Comp
variable {σ ε δ α β γ : Type}

def ret (a : α) : Comp σ ε α := fun s => some (.ok a, s)

def raise (e : ε) : Comp σ ε α := fun s => some (.error e, s)

/-- Runs `m` and hands its result, exception included, to `f`. -/
def attempt (m : Comp σ ε α) (f : Except ε α → Comp σ δ β) : Comp σ δ β := fun s =>
  match m s with
  | none => none
  | some (r, t) => f r t

/-- Runs `m` and continues with its value; an exception ends the whole computation. -/
def andThen (m : Comp σ ε α) (f : α → Comp σ ε β) : Comp σ ε β :=
  attempt m fun
    | .error e => raise e
    | .ok a => f a

def look (f : σ → Comp σ ε α) : Comp σ ε α := fun s => f s s

def change (g : σ → σ) (m : Comp σ ε α) : Comp σ ε α := fun s => m (g s)

/-- Runs `m` and returns its result, exception included. -/
def capture (m : Comp σ ε α) : Comp σ δ (Except ε α) := attempt m ret

def carry (f : α → Comp σ δ (Except ε β)) : Except ε α → Comp σ δ (Except ε β)
  | .error e => ret (.error e)
  | .ok a => f a

/-! ### Partial correctness -/

/-- Whatever `m` ends with when it is started in `s` satisfies `Q`. -/
def wp (m : Comp σ ε α) (Q : Except ε α → σ → Prop) (s : σ) : Prop :=
  ∀ r t, m s = some (r, t) → Q r t

variable {m : Comp σ ε α} {Q R : Except ε α → σ → Prop} {s : σ}

theorem wp_ret (a : α) : wp (ret a) Q s ↔ Q (.ok a) s := by
  simp only [wp, ret, Option.some.injEq, Prod.mk.injEq]
  exact ⟨fun h => h _ _ ⟨rfl, rfl⟩, fun h r t ⟨hr, ht⟩ => hr ▸ ht ▸ h⟩

theorem wp_raise (e : ε) : wp (raise e) Q s ↔ Q (.error e) s := by
  simp only [wp, raise, Option.some.injEq, Prod.mk.injEq]
  exact ⟨fun h => h _ _ ⟨rfl, rfl⟩, fun h r t ⟨hr, ht⟩ => hr ▸ ht ▸ h⟩

theorem wp_attempt {f : Except ε α → Comp σ δ β} {P : Except δ β → σ → Prop} :
    wp (attempt m f) P s ↔ wp m (fun r t => wp (f r) P t) s := by
  constructor
  · intro h r t hm r' t' hf
    exact h r' t' (by simpa only [attempt, hm] using hf)
  · intro h r' t' hf
    cases hm : m s with
    | none => simp [attempt, hm] at hf
    | some x => exact h x.1 x.2 hm r' t' (by simpa only [attempt, hm] using hf)

theorem wp_andThen {f : α → Comp σ ε β} {P : Except ε β → σ → Prop} :
    wp (andThen m f) P s ↔
      wp m (fun r t => match r with | .error e => P (.error e) t | .ok a => wp (f a) P t) s := by
  rw [andThen, wp_attempt]
  constructor
  · intro h r t hm
    have hr := h r t hm
    cases r with
    | error e => exact (wp_raise e).mp hr
    | ok a => exact hr
  · intro h r t hm
    have hr := h r t hm
    cases r with
    | error e => exact (wp_raise e).mpr hr
    | ok a => exact hr

theorem wp_look {f : σ → Comp σ ε α} : wp (look f) Q s ↔ wp (f s) Q s := Iff.rfl

theorem wp_change {g : σ → σ} : wp (change g m) Q s ↔ wp m Q (g s) := Iff.rfl

theorem wp_mono (h : wp m Q s) (hQ : ∀ r t, Q r t → R r t) : wp m R s :=
  fun r t hm => hQ r t (h r t hm)

theorem wp_and (hQ : wp m Q s) (hR : wp m R s) : wp m (fun r t => Q r t ∧ R r t) s :=
  fun r t hm => ⟨hQ r t hm, hR r t hm⟩

/-! ### Definedness and approximation -/

/-- `m` does not run out of fuel when it is started in `s`. -/
def Ends (m : Comp σ ε α) (s : σ) : Prop := m s ≠ none

theorem ends_ret (a : α) : Ends (ret a : Comp σ ε α) s := by simp [Ends, ret]

theorem ends_raise (e : ε) : Ends (raise e : Comp σ ε α) s := by simp [Ends, raise]

theorem ends_attempt {f : Except ε α → Comp σ δ β} (hm : Ends m s)
    (hf : wp m (fun r t => Ends (f r) t) s) : Ends (attempt m f) s := by
  cases h : m s with
  | none => exact absurd h hm
  | some x =>
    have hx : f x.1 x.2 ≠ none := hf x.1 x.2 h
    simpa only [Ends, attempt, h] using hx

theorem ends_andThen {f : α → Comp σ ε β} (hm : Ends m s)
    (hf : wp m (fun r t => ∀ a, r = .ok a → Ends (f a) t) s) : Ends (andThen m f) s := by
  refine ends_attempt hm (wp_mono hf ?_)
  intro r t h
  cases r with
  | error e => exact ends_raise e
  | ok a => exact h a rfl

theorem ends_look {f : σ → Comp σ ε α} : Ends (look f) s ↔ Ends (f s) s := Iff.rfl

theorem ends_change {g : σ → σ} : Ends (change g m) s ↔ Ends m (g s) := Iff.rfl

/-- `n` does whatever `m` does, and may end where `m` runs out of fuel. -/
def Approx (m n : Comp σ ε α) : Prop := ∀ s x, m s = some x → n s = some x

theorem wp_of_approx {n : Comp σ ε α} (h : Approx m n) (hn : wp n Q s) : wp m Q s :=
  fun r t hm => hn r t (h s _ hm)

theorem approx_refl (m : Comp σ ε α) : Approx m m := fun _ _ h => h

theorem approx_attempt {n : Comp σ ε α} {f g : Except ε α → Comp σ δ β} (hm : Approx m n)
    (hf : ∀ r, Approx (f r) (g r)) : Approx (attempt m f) (attempt n g) := by
  intro s x h
  cases hs : m s with
  | none => simp [attempt, hs] at h
  | some y =>
    have hf' := hf y.1 y.2 x (by simpa only [attempt, hs] using h)
    simpa only [attempt, hm s y hs] using hf'

theorem approx_andThen {n : Comp σ ε α} {f g : α → Comp σ ε β} (hm : Approx m n)
    (hf : ∀ a, Approx (f a) (g a)) : Approx (andThen m f) (andThen n g) := by
  refine approx_attempt hm ?_
  intro r
  cases r with
  | error e => exact approx_refl _
  | ok a => exact hf a

theorem approx_look {f g : σ → Comp σ ε α} (h : ∀ s, Approx (f s) (g s)) :
    Approx (look f) (look g) := fun s => h s s

theorem approx_change {n : Comp σ ε α} (g : σ → σ) (h : Approx m n) :
    Approx (change g m) (change g n) := fun s => h (g s)

/-! ### The fixpoint -/

/-- `fuel` unfoldings of `body`, with nothing below them. -/
def fix (body : (γ → Comp σ ε α) → γ → Comp σ ε α) : ℕ → γ → Comp σ ε α
  | 0 => fun _ _ => none
  | fuel + 1 => body (fix body fuel)

variable {body : (γ → Comp σ ε α) → γ → Comp σ ε α}

/-- A property of every unfolding of the body is a property of the fixpoint. -/
theorem fix_wp (P : γ → σ → Prop) (Q : γ → σ → Except ε α → σ → Prop)
    (step : ∀ rec, (∀ c s, P c s → wp (rec c) (Q c s) s) →
      ∀ c s, P c s → wp (body rec c) (Q c s) s) :
    ∀ fuel c s, P c s → wp (fix body fuel c) (Q c s) s := by
  intro fuel
  induction fuel with
  | zero => intro c s _ r t h; cases h
  | succ fuel ih => exact step _ ih

theorem fix_succ (mono : ∀ f g : γ → Comp σ ε α, (∀ c, Approx (f c) (g c)) →
      ∀ c, Approx (body f c) (body g c)) (fuel : ℕ) (c : γ) :
    Approx (fix body fuel c) (fix body (fuel + 1) c) := by
  induction fuel generalizing c with
  | zero => intro s x h; cases h
  | succ fuel ih => exact mono _ _ ih c

/-- More fuel never changes a result. -/
theorem fix_mono (mono : ∀ f g : γ → Comp σ ε α, (∀ c, Approx (f c) (g c)) →
      ∀ c, Approx (body f c) (body g c)) {fuel fuel' : ℕ} (h : fuel ≤ fuel') (c : γ) :
    Approx (fix body fuel c) (fix body fuel' c) := by
  obtain ⟨k, rfl⟩ := Nat.exists_eq_add_of_le h
  clear h
  induction k with
  | zero => exact approx_refl _
  | succ k ih => exact fun s x hx => fix_succ mono (fuel + k) c s x (ih s x hx)

end Comp
end Omulator.Lib
