import Omulator.Lib.Transition

/-!
# Scripts

A script makes calls one after the other, each of which may depend on the answers to those
before it. The world that answers them also changes by itself, before any call. A routine is a
script that has a state of its own and may throw.
-/

namespace Omulator.Lib

variable {Op : Type} {Ans : Op → Type} {D W σ ε α β : Type}

inductive Script (Op : Type) (Ans : Op → Type) (α : Type) where
  | ret (a : α)
  | call (op : Op) (k : Ans op → Script Op Ans α)

/-- What an answer to a call does to the world, if it can be the answer, and what each change
does that the world makes by itself. -/
structure Service (Op : Type) (Ans : Op → Type) (D W : Type) where
  answer : (op : Op) → Ans op → W → Option W
  drift : D → W → Option W

namespace Service

def Drifts (V : Service Op Ans D W) : W → W → Prop :=
  Relation.ReflTransGen fun w w' => ∃ d, V.drift d w = some w'

def Stable (V : Service Op Ans D W) (P : W → Prop) : Prop :=
  ∀ w d w', P w → V.drift d w = some w' → P w'

theorem Stable.of_drifts {V : Service Op Ans D W} {P : W → Prop} (hP : V.Stable P) {w w' : W}
    (h : V.Drifts w w') (hw : P w) : P w' := by
  induction h with
  | refl => exact hw
  | tail _ hd ih =>
    obtain ⟨d, hd⟩ := hd
    exact hP _ d _ ih hd

theorem Stable.and {V : Service Op Ans D W} {P Q : W → Prop} (hP : V.Stable P)
    (hQ : V.Stable Q) : V.Stable fun w => P w ∧ Q w :=
  fun w d w' h hd => ⟨hP w d w' h.1 hd, hQ w d w' h.2 hd⟩

/-- A world that never changes and gives any answer. -/
def any : Service Op Ans Empty Unit where
  answer _ _ w := some w
  drift d _ := nomatch d

end Service

namespace Script

def bind : Script Op Ans α → (α → Script Op Ans β) → Script Op Ans β
  | ret a, f => f a
  | call op k, f => call op fun x => (k x).bind f

instance : Monad (Script Op Ans) where
  pure := ret
  bind := bind

/-- Each call of the script meets `guard` when it is made, and what the script returns and the
world it leaves satisfy `Q`, as long as the answers are those of `ok`. -/
def Safe (V : Service Op Ans D W) (guard : Op → W → Prop) (ok : (op : Op) → Ans op → Prop)
    (Q : α → W → Prop) : Script Op Ans α → W → Prop
  | ret a, w => Q a w
  | call op k, w => ∀ w', V.Drifts w w' → guard op w' ∧
      ∀ x w'', ok op x → V.answer op x w' = some w'' → (k x).Safe V guard ok Q w''

variable {V : Service Op Ans D W} {guard : Op → W → Prop} {ok : (op : Op) → Ans op → Prop}

theorem safe_bind {Q : β → W → Prop} (p : Script Op Ans α) (f : α → Script Op Ans β) (w : W) :
    (p.bind f).Safe V guard ok Q w ↔
      p.Safe V guard ok (fun a w' => (f a).Safe V guard ok Q w') w := by
  induction p generalizing w with
  | ret a => rfl
  | call op k ih => simp only [bind, Safe, ih]

theorem safe_mono {Q R : α → W → Prop} {p : Script Op Ans α} {w : W} (h : p.Safe V guard ok Q w)
    (hQ : ∀ a w', Q a w' → R a w') : p.Safe V guard ok R w := by
  induction p generalizing w with
  | ret a => exact hQ a w h
  | call op k ih =>
    intro w' hd
    obtain ⟨hg, hk⟩ := h w' hd
    exact ⟨hg, fun x w'' ho hx => ih x (hk x w'' ho hx)⟩

theorem Safe.drift {Q : α → W → Prop} {p : Script Op Ans α} {w w' : W} {d : D}
    (h : p.Safe V guard ok Q w) (hQ : ∀ a, V.Stable (Q a)) (hd : V.drift d w = some w') :
    p.Safe V guard ok Q w' := by
  cases p with
  | ret a => exact hQ a w d w' h hd
  | call op k => exact fun u hu => h u (Relation.ReflTransGen.head ⟨d, hd⟩ hu)

def May (P : Op → Prop) : Script Op Ans α → Prop
  | ret _ => False
  | call op k => P op ∨ ∃ x, (k x).May P

theorem not_may {P : Op → Prop} {guard : Op → Unit → Prop} {Q : α → Unit → Prop}
    {p : Script Op Ans α} (h : p.Safe .any guard (fun _ _ => True) Q ())
    (hP : ∀ op, guard op () → ¬ P op) : ¬ p.May P := by
  induction p with
  | ret a => exact id
  | call op k ih =>
    obtain ⟨hg, hk⟩ := h () .refl
    rintro (hp | ⟨x, hx⟩)
    · exact hP op hg hp
    · exact ih x (hk x () trivial rfl) hx

end Script

/-! ### Routines -/

abbrev Routine (Op : Type) (Ans : Op → Type) (σ ε : Type) :=
  ExceptT ε (StateT σ (Script Op Ans))

namespace Routine

def start (m : Routine Op Ans σ ε α) (s : σ) : Script Op Ans (Except ε α × σ) := m.run.run s

def ask (op : Op) : Routine Op Ans σ ε (Ans op) :=
  ExceptT.mk fun s => .call op fun x => .ret (.ok x, s)

variable {V : Service Op Ans D W} {guard : Op → W → Prop} {ok : (op : Op) → Ans op → Prop}

def wp (V : Service Op Ans D W) (guard : Op → W → Prop) (ok : (op : Op) → Ans op → Prop)
    (m : Routine Op Ans σ ε α) (Q : Except ε α → σ → W → Prop) (s : σ) (w : W) : Prop :=
  (m.start s).Safe V guard ok (fun x w' => Q x.1 x.2 w') w

variable {Q R : Except ε α → σ → W → Prop} {s : σ} {w : W}

theorem wp_pure (a : α) : wp V guard ok (pure a) Q s w ↔ Q (.ok a) s w := Iff.rfl

theorem wp_get {Q : Except ε σ → σ → W → Prop} :
    wp V guard ok (get : Routine Op Ans σ ε σ) Q s w ↔ Q (.ok s) s w := Iff.rfl

theorem wp_modify {Q : Except ε PUnit → σ → W → Prop} (f : σ → σ) :
    wp V guard ok (modify f : Routine Op Ans σ ε PUnit) Q s w ↔ Q (.ok ⟨⟩) (f s) w := Iff.rfl

theorem wp_ask {op : Op} {Q : Except ε (Ans op) → σ → W → Prop} :
    wp V guard ok (ask op) Q s w ↔ ∀ w', V.Drifts w w' → guard op w' ∧
      ∀ x w'', ok op x → V.answer op x w' = some w'' → Q (.ok x) s w'' := Iff.rfl

theorem start_bind (m : Routine Op Ans σ ε α) (f : α → Routine Op Ans σ ε β) (s : σ) :
    (m >>= f).start s = (m.start s).bind fun x =>
      match x.1 with
      | .ok a => (f a).start x.2
      | .error e => .ret (.error e, x.2) := by
  show (m.start s).bind _ = _
  congr 1
  funext x
  obtain ⟨r, s'⟩ := x
  cases r with
  | ok a => rfl
  | error e => rfl

theorem wp_bind {f : α → Routine Op Ans σ ε β} {Q : Except ε β → σ → W → Prop}
    {m : Routine Op Ans σ ε α} :
    wp V guard ok (m >>= f) Q s w ↔
      wp V guard ok m (fun r s' w' => match r with
        | .ok a => wp V guard ok (f a) Q s' w'
        | .error e => Q (.error e) s' w') s w := by
  rw [wp, start_bind, Script.safe_bind, wp]
  constructor
  · intro h
    refine Script.safe_mono h fun x w' hx => ?_
    obtain ⟨r, s'⟩ := x
    cases r with
    | ok a => exact hx
    | error e => exact hx
  · intro h
    refine Script.safe_mono h fun x w' hx => ?_
    obtain ⟨r, s'⟩ := x
    cases r with
    | ok a => exact hx
    | error e => exact hx

theorem wp_mono {m : Routine Op Ans σ ε α} (h : wp V guard ok m Q s w)
    (hQ : ∀ r s' w', Q r s' w' → R r s' w') : wp V guard ok m R s w :=
  Script.safe_mono h fun x w' hx => hQ x.1 x.2 w' hx

/-- The rule for a call: what is known before it must survive the changes of the world. -/
theorem wp_ask_of {op : Op} {Q : Except ε (Ans op) → σ → W → Prop} {P : W → Prop}
    (hP : V.Stable P) (h : P w) (hg : ∀ w', P w' → guard op w')
    (hk : ∀ x w' w'', P w' → ok op x → V.answer op x w' = some w'' → Q (.ok x) s w'') :
    wp V guard ok (ask op) Q s w := by
  rw [wp_ask]
  intro w' hd
  have h' : P w' := hP.of_drifts hd h
  exact ⟨hg w' h', fun x w'' ho hx => hk x w' w'' h' ho hx⟩

theorem wp_ask_bind {op : Op} {f : Ans op → Routine Op Ans σ ε α} {P : W → Prop}
    (hP : V.Stable P) (h : P w) (hg : ∀ w', P w' → guard op w')
    (hk : ∀ x w' w'', P w' → ok op x → V.answer op x w' = some w'' →
      wp V guard ok (f x) Q s w'') :
    wp V guard ok (ask op >>= f) Q s w := wp_bind.mpr (wp_ask_of hP h hg hk)

theorem start_tryCatch (m : Routine Op Ans σ ε α) (f : ε → Routine Op Ans σ ε α) (s : σ) :
    (tryCatch m f).start s = (m.start s).bind fun x =>
      match x.1 with
      | .ok a => .ret (.ok a, x.2)
      | .error e => (f e).start x.2 := by
  show (m.start s).bind _ = _
  congr 1
  funext x
  obtain ⟨r, s'⟩ := x
  cases r with
  | ok a => rfl
  | error e => rfl

theorem wp_tryCatch {m : Routine Op Ans σ ε α} {f : ε → Routine Op Ans σ ε α} :
    wp V guard ok (tryCatch m f) Q s w ↔
      wp V guard ok m (fun r s' w' => match r with
        | .ok a => Q (.ok a) s' w'
        | .error e => wp V guard ok (f e) Q s' w') s w := by
  rw [wp, start_tryCatch, Script.safe_bind, wp]
  constructor
  · intro h
    refine Script.safe_mono h fun x w' hx => ?_
    obtain ⟨r, s'⟩ := x
    cases r with
    | ok a => exact hx
    | error e => exact hx
  · intro h
    refine Script.safe_mono h fun x w' hx => ?_
    obtain ⟨r, s'⟩ := x
    cases r with
    | ok a => exact hx
    | error e => exact hx

/-- The rule for a loop: `I` says what holds when these elements are still to come, and `E` what
holds when the loop is left by an exception. -/
theorem wp_forM {f : β → Routine Op Ans σ ε PUnit} (I : List β → σ → W → Prop)
    (E : ε → σ → W → Prop)
    (step : ∀ x xs s w, I (x :: xs) s w → wp V guard ok (f x) (fun r s' w' => match r with
      | .ok _ => I xs s' w'
      | .error e => E e s' w') s w) {xs : List β} (h : I xs s w) :
    wp V guard ok (xs.forM f) (fun r s' w' => match r with
      | .ok _ => I [] s' w'
      | .error e => E e s' w') s w := by
  induction xs generalizing s w with
  | nil => exact h
  | cons x xs ih =>
    refine wp_bind.mpr (wp_mono (step x xs s w h) ?_)
    intro r s' w' hr
    cases r with
    | ok u => exact ih hr
    | error e => exact hr

theorem wp_get_bind {f : σ → Routine Op Ans σ ε α} :
    wp V guard ok (get >>= f) Q s w ↔ wp V guard ok (f s) Q s w := wp_bind.trans wp_get

theorem wp_modify_bind {g : σ → σ} {f : PUnit → Routine Op Ans σ ε α} :
    wp V guard ok (modify g >>= f) Q s w ↔ wp V guard ok (f ⟨⟩) Q (g s) w :=
  wp_bind.trans (wp_modify g)

end Routine

/-! ### Clients -/

/-- A client runs one routine at a time; the state it keeps between them is in the script
that has returned. -/
structure Client (Op : Type) (Ans : Op → Type) (W σ ε : Type) where
  world : W
  task : Script Op Ans (Except ε Unit × σ)

namespace Client

inductive Act (Op : Type) (Ans : Op → Type) (D C : Type) where
  | enter (c : C)
  | call (op : Op) (x : Ans op)
  | drift (d : D)

variable {C : Type} [DecidableEq Op]

/-- `body c` is what the request `c` runs, and `mark` what the world notes when it begins. -/
def step (V : Service Op Ans D W) (body : C → Routine Op Ans σ ε Unit) (mark : W → W) :
    Act Op Ans D C → Client Op Ans W σ ε → Option (Client Op Ans W σ ε)
  | .enter c, ⟨w, .ret (_, s)⟩ => some ⟨mark w, (body c).start s⟩
  | .call op x, ⟨w, .call op' k⟩ =>
    if h : op = op' then (V.answer op x w).map fun w' => ⟨w', k (h ▸ x)⟩ else none
  | .drift d, s => (V.drift d s.world).map fun w' => { s with world := w' }
  | .enter _, ⟨_, .call _ _⟩ | .call _ _, ⟨_, .ret _⟩ => none

/-- An answer to a call is one of `ok`. -/
def Act.Answers (ok : (op : Op) → Ans op → Prop) : Act Op Ans D C → Prop
  | .call op x => ok op x
  | .enter _ | .drift _ => True

variable {V : Service Op Ans D W} {body : C → Routine Op Ans σ ε Unit} {mark : W → W}
  {guard : Op → W → Prop} {ok : (op : Op) → Ans op → Prop} {Inv : σ → W → Prop}

theorem safe_step (hI : ∀ s, V.Stable (Inv s))
    (hbody : ∀ c s w, Inv s w → (body c).wp V guard ok (fun _ s' w' => Inv s' w') s (mark w))
    {a : Act Op Ans D C} {t u : Client Op Ans W σ ε}
    (ht : t.task.Safe V guard ok (fun x w => Inv x.2 w) t.world) (ha : a.Answers ok)
    (h : step V body mark a t = some u) :
    u.task.Safe V guard ok (fun x w => Inv x.2 w) u.world := by
  obtain ⟨w, p⟩ := t
  cases a with
  | enter c => cases p with
    | ret x =>
      cases h
      exact hbody c x.2 w ht
    | call op k => cases h
  | call op x => cases p with
    | ret y => cases h
    | call op' k =>
      simp only [step] at h
      split at h
      · rename_i he
        subst he
        obtain ⟨w', hw, rfl⟩ := Option.map_eq_some_iff.mp h
        exact (ht w .refl).2 x w' ha hw
      · cases h
  | drift d =>
    obtain ⟨w', hw, rfl⟩ := Option.map_eq_some_iff.mp h
    exact ht.drift (fun x => hI x.2) hw

/-- Every call of every run meets the guard when each routine does so from the invariant,
keeps the invariant, and the world keeps it too. -/
theorem guarded (hI : ∀ s, V.Stable (Inv s))
    (hbody : ∀ c s w, Inv s w → (body c).wp V guard ok (fun _ s' w' => Inv s' w') s (mark w))
    {r : Except ε Unit} {s : σ} {w : W} {t : Client Op Ans W σ ε} (h₀ : Inv s w)
    (h : RunUnder (fun t a u => step V body mark a t = some u) (fun _ a => a.Answers ok)
      ⟨w, .ret (r, s)⟩ t)
    {op : Op} {k : Ans op → Script Op Ans (Except ε Unit × σ)} (ht : t.task = .call op k) :
    guard op t.world := by
  have hs : t.task.Safe V guard ok (fun x w => Inv x.2 w) t.world :=
    RunUnder.invariant (fun t => t.task.Safe V guard ok (fun x w => Inv x.2 w) t.world) h h₀
      fun t a u ht ha hu => safe_step hI hbody ht ha hu
  rw [ht] at hs
  exact (hs t.world .refl).1

theorem kept (hI : ∀ s, V.Stable (Inv s))
    (hbody : ∀ c s w, Inv s w → (body c).wp V guard ok (fun _ s' w' => Inv s' w') s (mark w))
    {r r' : Except ε Unit} {s s' : σ} {w : W} {t : Client Op Ans W σ ε} (h₀ : Inv s w)
    (h : RunUnder (fun t a u => step V body mark a t = some u) (fun _ a => a.Answers ok)
      ⟨w, .ret (r, s)⟩ t) (ht : t.task = .ret (r', s')) : Inv s' t.world := by
  have hs : t.task.Safe V guard ok (fun x w => Inv x.2 w) t.world :=
    RunUnder.invariant (fun t => t.task.Safe V guard ok (fun x w => Inv x.2 w) t.world) h h₀
      fun t a u ht ha hu => safe_step hI hbody ht ha hu
  rw [ht] at hs
  exact hs

end Client
end Omulator.Lib
