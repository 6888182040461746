import Omulator.Di.Recovery
import Mathlib.Logic.Relation

/-!
# The cycle check

For recipes that pass on what they are thrown and return a non-null pointer, on a root
injector on which no call has thrown yet: a call reports a cycle exactly when the
depth-first run of the recipes comes back to a type on its path, such a type depends on
itself, and a call that throws nothing else returns an instance.
-/

namespace Omulator.Di
open Omulator.Lib Comp

/-! ### Recipes -/

/-- `creat` may be asked for `T`: it is not abstract, and not bound to an implementation. -/
def Creatable (ty : Types) (R : AList fun _ : Hash_t => Recipe) (T : Hash_t) : Prop :=
  ty.is_abstract T = false ∧ ∀ impl, R.lookup T ≠ some (.bind impl)

/-- A recipe that makes requests until one throws, and then returns a non-null pointer or
throws an exception of its own. -/
def Prog.Fits (ty : Types) (R : AList fun _ : Hash_t => Recipe) : Prog → Prop
  | .new => True
  | .ret p => p.isSome
  | .throw e => ∃ n, e = .user n
  | .get _ k => (∀ e, k (.error e) = .throw e) ∧ ∀ p, (k (.ok p)).Fits ty R
  | .creat U k =>
    Creatable ty R U ∧ (∀ e, k (.error e) = .throw e) ∧ ∀ p, (k (.ok p)).Fits ty R

/-- The same of a recipe that may handle what a request throws. -/
def Prog.Finishes (ty : Types) (R : AList fun _ : Hash_t => Recipe) : Prog → Prop
  | .new => True
  | .ret p => p.isSome
  | .throw _ => True
  | .get _ k => ∀ r, (k r).Finishes ty R
  | .creat U k => Creatable ty R U ∧ ∀ r, (k r).Finishes ty R

/-- Recipes of types that have instances of their own fit; an abstract type is only bound. -/
structure Admissible (ty : Types) (R : AList fun _ : Hash_t => Recipe) : Prop where
  fits : ∀ T body, R.lookup T = some (.fn body) → ∀ m, (body m).Fits ty R
  concrete : ∀ T body, R.lookup T = some (.fn body) → ty.is_abstract T = false
  child : ∀ T, R.lookup T = some .child → ty.is_abstract T = false

def Prog.Asks (U : Hash_t) : Prog → Prop
  | .new | .ret _ | .throw _ => False
  | .get V k | .creat V k => V = U ∨ ∃ r, (k r).Asks U

def Requests (R : AList fun _ : Hash_t => Recipe) (T U : Hash_t) : Prop :=
  match R.lookup T with
  | some (.fn body) => ∃ m, (body m).Asks U
  | some (.bind impl) => impl = U
  | _ => False

/-- `T` depends on itself. -/
abbrev Cyclic (R : AList fun _ : Hash_t => Recipe) (T : Hash_t) : Prop :=
  Relation.TransGen (Requests R) T T

inductive Cause (ty : Types) (R : AList fun _ : Hash_t => Recipe) : Exn → Prop
  | cycle {T : Hash_t} : Cyclic R T → Cause ty R (.cycle T)
  | noImpl {T : Hash_t} : R.lookup T = none → ty.is_abstract T = true → Cause ty R (.noImpl T)
  | noRecipe {T : Hash_t} : R.lookup T = none → ty.default_initializable T = false →
      Cause ty R (.noRecipe T)
  | user (n : ℕ) : Cause ty R (.user n)

theorem ctorRecipe_fits (ty : Types) (R : AList fun _ : Hash_t => Recipe) (Ts : List Dep)
    (h : ∀ T, .value T ∈ Ts → Creatable ty R T) : (ctorRecipe Ts).Fits ty R := by
  induction Ts with
  | nil => trivial
  | cons D Ts ih =>
    have hTs : (ctorRecipe Ts).Fits ty R := ih fun T hT => h T (List.mem_cons_of_mem _ hT)
    cases D with
    | ref T => exact ⟨fun _ => rfl, fun _ => hTs⟩
    | value T => exact ⟨h T (List.mem_cons_self ..), fun _ => rfl, fun _ => hTs⟩

theorem Prog.Fits.mono {ty : Types} {R R' : AList fun _ : Hash_t => Recipe} {p : Prog}
    (hc : ∀ U, Creatable ty R U → Creatable ty R' U) (h : p.Fits ty R) : p.Fits ty R' := by
  induction p with
  | new => trivial
  | ret p => exact h
  | throw e => exact h
  | get U k ih => exact ⟨h.1, fun p => ih _ (h.2 p)⟩
  | creat U k ih => exact ⟨hc U h.1, h.2.1, fun p => ih _ (h.2.2 p)⟩

theorem Admissible.addRecipe {ty : Types} {R : AList fun _ : Hash_t => Recipe} {T : Hash_t}
    {body : ℕ → Prog} (h : Admissible ty R) (hT : ty.is_abstract T = false)
    (hbody : ∀ m, (body m).Fits ty R) : Admissible ty (R.insert T (.fn body)) := by
  have hc : ∀ U, Creatable ty R U → Creatable ty (R.insert T (.fn body)) U := by
    rintro U ⟨ha, hb⟩
    refine ⟨ha, fun impl hl => ?_⟩
    by_cases hU : U = T
    · subst hU
      rw [AList.lookup_insert] at hl
      cases hl
    · rw [AList.lookup_insert_ne hU] at hl
      exact hb impl hl
  refine ⟨?_, ?_, ?_⟩
  · intro U body' hl m
    by_cases hU : U = T
    · subst hU
      rw [AList.lookup_insert] at hl
      cases hl
      exact (hbody m).mono hc
    · rw [AList.lookup_insert_ne hU] at hl
      exact (h.fits U body' hl m).mono hc
  · intro U body' hl
    by_cases hU : U = T
    · exact hU ▸ hT
    · rw [AList.lookup_insert_ne hU] at hl
      exact h.concrete U body' hl
  · intro U hl
    by_cases hU : U = T
    · exact hU ▸ hT
    · rw [AList.lookup_insert_ne hU] at hl
      exact h.child U hl

theorem admissible_construct (ty : Types) (i : ℕ)
    (pUpstream : Option ℕ) : Admissible ty (Injector.construct i pUpstream).recipeMap_ := by
  refine ⟨fun T body h => ?_, fun T body h => ?_, fun T h => ?_⟩
  · cases (Injector.construct_recipe h).2
  · cases (Injector.construct_recipe h).2
  · rw [(Injector.construct_recipe h).1]
    exact ty.injector_concrete

theorem Prog.Fits.rethrows {ty : Types} {R : AList fun _ : Hash_t => Recipe} {p : Prog}
    (h : p.Fits ty R) : p.Rethrows := by
  induction p with
  | new | ret _ | throw _ => trivial
  | get U k ih => exact ⟨h.1, fun p => ih _ (h.2 p)⟩
  | creat U k ih => exact ⟨h.2.1, fun p => ih _ (h.2.2 p)⟩

theorem Admissible.rethrowing {ty : Types} {R : AList fun _ : Hash_t => Recipe}
    (h : Admissible ty R) : Rethrowing R :=
  fun T body hl m => (h.fits T body hl m).rethrows

/-! ### Instances are never null -/

def TypeMap.NonNull (m : TypeMap) : Prop := ∀ T c, m.lookup T = some c → c.ptr_.isSome

theorem nonNull_construct (i : ℕ) (pUpstream : Option ℕ) :
    (Injector.construct i pUpstream).typeMap_.NonNull := by
  intro T c h
  rw [(Injector.construct_entry h).2]
  rfl

/-- The root with its recipes, every instance in its map being there. -/
structure Stocked (R : AList fun _ : Hash_t => Recipe) (w : World) : Prop extends Rooted R w where
  nonNull : (w.inj 0).typeMap_.NonNull

namespace Stocked
variable {R : AList fun _ : Hash_t => Recipe} {w w' : World} {T : Hash_t}

theorem placed (h : Stocked R w) (hp : Placed 0 T w w')
    (hT : ∀ c, (w'.inj 0).typeMap_.lookup T = some c → c.ptr_.isSome) : Stocked R w' where
  toRooted := h.toRooted.stays hp
  nonNull U c hU := by
    by_cases hUT : U = T
    · subst hUT
      exact hT c hU
    · rw [hp.lookup_ne (Or.inr hUT)] at hU
      exact h.nonNull U c hU

theorem emit (h : Stocked R w) (e : Event) : Stocked R (w.emit e) :=
  h.placed ((Placed.refl 0 0 w).emit e) (h.nonNull 0)

theorem alloc (h : Stocked R w) : Stocked R w.alloc :=
  h.placed (Placed.refl 0 0 w.alloc).of_alloc (h.nonNull 0)

theorem destroyAll (h : Stocked R w) (as : List Addr) : Stocked R (w.destroyAll as) :=
  h.placed ((Placed.refl 0 0 w).destroyAll as) (h.nonNull 0)

theorem newChild (h : Stocked R w) : Stocked R (w.newChild 0) where
  toRooted := h.toRooted.ext (Ext.newChild 0 w)
  nonNull := by
    rw [World.newChild_inj_ne w 0 0 (by have := h.lt; omega)]
    exact h.nonNull

theorem record (h : Stocked R w) (U : Hash_t) (d : DepType_t) : Stocked R (record U d w) where
  wf := upd_wf h.wf 0 (fun x => { x with invocationList_ :=
    if d = .NEW_VALUE then x.invocationList_ else x.invocationList_ ++ [U] }) rfl
  lt := h.lt
  root := by simp [Di.record, h.root]
  recipes := by simp [Di.record, h.recipes]
  nonNull := by simpa [Di.record] using h.nonNull

theorem getD_nonNull (h : Stocked R w) (T : Hash_t) (p : Option Addr) (b : Bool)
    (hp : w.has_instance 0 T = true ∨ p.isSome) :
    (((w.inj 0).typeMap_.lookup T).getD ⟨p, b⟩).ptr_.isSome := by
  cases hl : (w.inj 0).typeMap_.lookup T with
  | some c => exact h.nonNull T c hl
  | none =>
    have hno : w.has_instance 0 T = false := (TypeMap.not_has_key_iff _ T).mpr hl
    exact hp.resolve_left (by simp [hno])

theorem emplace_impl (h : Stocked R w) (T : Hash_t) (p : Option Addr) (hp : p.isSome) :
    Stocked R (w.emplace_impl 0 T p) ∧ (w.emplace_impl 0 T p).has_instance 0 T = true := by
  have hl : ((w.emplace_impl 0 T p).inj 0).typeMap_.lookup T =
      some (((w.inj 0).typeMap_.lookup T).getD ⟨p, false⟩) := by
    rw [World.emplace_impl, World.onTypeMap_inj_self]
    exact TypeMap.emplace_impl_lookup _ T p
  refine ⟨h.placed (Placed.emplace_impl 0 T p w) ?_, (TypeMap.has_key_iff _ T).mpr ⟨_, hl⟩⟩
  intro c hc
  rw [hl] at hc
  cases hc
  exact h.getD_nonNull T p false (Or.inr hp)

theorem emplace (h : Stocked R w) (T : Hash_t) (p : Option Addr)
    (hp : w.has_instance 0 T = true ∨ p.isSome) :
    Stocked R (w.onTypeMap 0 (·.emplace T p)) ∧
      (w.onTypeMap 0 (·.emplace T p)).has_instance 0 T = true := by
  have hl : ((w.onTypeMap 0 (·.emplace T p)).inj 0).typeMap_.lookup T =
      some (((w.inj 0).typeMap_.lookup T).getD ⟨p, p.isSome⟩) := by
    rw [World.onTypeMap_inj_self]
    exact TypeMap.emplace_lookup _ T p
  refine ⟨h.placed (Placed.onTypeMap 0 T w _ fun m => m.adds_emplace T p) ?_,
    (TypeMap.has_key_iff _ T).mpr ⟨_, hl⟩⟩
  intro c hc
  rw [hl] at hc
  cases hc
  exact h.getD_nonNull T p _ hp

theorem emplace_ptr (h : Stocked R w) (T : Hash_t) (p : Option Addr)
    (hp : w.has_instance 0 T = true ∨ p.isSome) :
    Stocked R (w.emplace_ptr 0 T p) ∧ (w.emplace_ptr 0 T p).has_instance 0 T = true := by
  have hl : ((w.emplace_ptr 0 T p).inj 0).typeMap_.lookup T =
      some (((w.inj 0).typeMap_.lookup T).getD ⟨p, true⟩) := by
    have hm : ((w.emplace_ptr 0 T p).inj 0).typeMap_ =
        ((w.inj 0).typeMap_.emplace_ptr T p).1 := by
      unfold World.emplace_ptr
      cases p with
      | none => rw [World.onTypeMap_inj_self]
      | some a =>
        dsimp only
        split <;> simp
    rw [hm]
    exact TypeMap.emplace_ptr_lookup _ T p
  refine ⟨h.placed (Placed.emplace_ptr 0 T p w) ?_, (TypeMap.has_key_iff _ T).mpr ⟨_, hl⟩⟩
  intro c hc
  rw [hl] at hc
  cases hc
  exact h.getD_nonNull T p true hp

end Stocked

/-! ### The run -/

section
variable {ty : Types} {R : AList fun _ : Hash_t => Recipe} {α β : Type}

/-- A value with `Q`, or an exception with a cause; without an injection failing only if `C`. -/
def Yields (ty : Types) (R : AList fun _ : Hash_t => Recipe) (C : Prop) (Q : α → World → Prop) :
    Except Exn (Except Exn α) → World → Prop
  | .ok (.ok a), u => Q a u
  | .ok (.error e), _ => C ∧ Cause ty R e
  | .error e, _ => Cause ty R e

theorem Yields.weaken {C C' : Prop} {Q : α → World → Prop} {r : Except Exn (Except Exn α)}
    {u : World} (h : Yields ty R C Q r u) (hC : C → C') : Yields ty R C' Q r u := by
  rcases r with e | e | a
  · exact h
  · exact ⟨hC h.1, h.2⟩
  · exact h

theorem wp_carry {m : Comp World Exn (Except Exn α)} {g : α → Comp World Exn (Except Exn β)}
    {C : Prop} {Q : α → World → Prop} {Q' : β → World → Prop} {w : World}
    (hm : wp m (Yields ty R C Q) w) (hg : ∀ a u, Q a u → wp (g a) (Yields ty R C Q') u) :
    wp (andThen m (carry g)) (Yields ty R C Q') w := by
  rw [wp_andThen]
  refine wp_mono hm ?_
  intro r u h
  cases r with
  | error e => exact h
  | ok r =>
    cases r with
    | error e => exact (wp_ret _).mpr h
    | ok a => exact hg a u h

theorem wp_capture {m : M α} {C : Prop} {Q : α → World → Prop} {w : World}
    (h : wp m (fun r u => match r with | .ok a => Q a u | .error e => C ∧ Cause ty R e) w) :
    wp (capture m : Comp World Exn (Except Exn α)) (Yields ty R C Q) w := by
  rw [capture, wp_attempt]
  refine wp_mono h ?_
  intro r u hr
  rw [wp_ret]
  cases r with
  | error e => exact hr
  | ok a => exact hr

/-- Everything on the path leads to the type at hand. -/
def Visit.Leads (R : AList fun _ : Hash_t => Recipe) (v : Visit) : Prop :=
  ∀ V ∈ v.path, Relation.TransGen (Requests R) V v.type

/-- What a request of the run gives: an instance, or, if its own type is on the path, a cycle. -/
abbrev Answers (ty : Types) (R : AList fun _ : Hash_t => Recipe) (v : Visit) :
    Except Exn Outcome → World → Prop :=
  Yields ty R (v.type ∈ v.path) fun p u => Stocked R u ∧ p.isSome

abbrev Gives (ty : Types) (R : AList fun _ : Hash_t => Recipe) :
    Except Exn Outcome → World → Prop :=
  Yields ty R True fun p u => Stocked R u ∧ p.isSome

abbrev AnswersAll (ty : Types) (R : AList fun _ : Hash_t => Recipe)
    (drec : Visit → Comp World Exn Outcome) : Prop :=
  ∀ v w, (Stocked R w ∧ v.Leads R ∧ (v.kind = .creat → Creatable ty R v.type)) →
    wp (drec v) (Answers ty R v) w

variable {drec : Visit → Comp World Exn Outcome} {path : Finset Hash_t} {T : Hash_t} {w : World}

theorem request_sound (hrec : AnswersAll ty R drec)
    (hpath : ∀ V ∈ path, Relation.ReflTransGen (Requests R) V T) (kind : Kind) (U : Hash_t)
    (k : Outcome → Prog) (hU : Requests R T U) (hc : kind = .creat → Creatable ty R U)
    (hk : ∀ e, k (.error e) = .throw e) (hw : Stocked R w)
    (hrest : ∀ p u, Stocked R u → wp (dfsProg drec path (k (.ok p))) (Gives ty R) u) :
    wp (andThen (drec ⟨path, kind, U⟩) fun r => dfsProg drec path (k r)) (Gives ty R) w := by
  have hleads : Visit.Leads R ⟨path, kind, U⟩ := fun V hV => .tail' (hpath V hV) hU
  rw [wp_andThen]
  refine wp_mono (hrec _ w ⟨hw, hleads, hc⟩) ?_
  intro r u hy
  rcases r with e | e | p
  · exact hy
  · dsimp only
    rw [hk e]
    exact (wp_ret _).mpr ⟨trivial, hy.2⟩
  · exact hrest p u hy.1

theorem dfsProg_sound (hrec : AnswersAll ty R drec)
    (hpath : ∀ V ∈ path, Relation.ReflTransGen (Requests R) V T) (p : Prog)
    (hp : p.Fits ty R) (hasks : ∀ U, p.Asks U → Requests R T U) (hw : Stocked R w) :
    wp (dfsProg drec path p) (Gives ty R) w := by
  induction p generalizing w with
  | new =>
    simp only [dfsProg, wp_look, wp_change, wp_ret]
    exact ⟨hw.alloc, rfl⟩
  | ret p => exact (wp_ret _).mpr ⟨hw, hp⟩
  | throw e =>
    obtain ⟨n, rfl⟩ := hp
    exact (wp_ret _).mpr ⟨trivial, .user n⟩
  | get U k ih =>
    refine request_sound hrec hpath .get U k (hasks U (Or.inl rfl)) (by simp) hp.1 hw ?_
    intro p u hu
    exact ih (.ok p) (hp.2 p) (fun V hV => hasks V (Or.inr ⟨_, hV⟩)) hu
  | creat U k ih =>
    refine request_sound hrec hpath .creat U k (hasks U (Or.inl rfl)) (fun _ => hp.1) hp.2.1 hw ?_
    intro p u hu
    exact ih (.ok p) (hp.2.2 p) (fun V hV => hasks V (Or.inr ⟨_, hV⟩)) hu

/-- What the recipe for `T` comes back with: a pointer, or, when the type is bound, an entry in
the map. -/
def Supplied (R : AList fun _ : Hash_t => Recipe) (T : Hash_t) (p : Option Addr) (u : World) :
    Prop :=
  Stocked R u ∧ ((∃ impl, R.lookup T = some (.bind impl)) → u.has_instance 0 T = true) ∧
    ((∀ impl, R.lookup T ≠ some (.bind impl)) → p.isSome)

theorem dfsRecipe_sound (hadm : Admissible ty R) (hrec : AnswersAll ty R drec)
    (hpath : ∀ V ∈ path, Relation.ReflTransGen (Requests R) V T) (recipe : Recipe)
    (hl : R.lookup T = some recipe) (start : ℕ) (hw : Stocked R w) :
    wp (dfsRecipe drec path T start recipe) (Yields ty R True (Supplied R T)) w := by
  cases recipe with
  | fn body =>
    have hasks : ∀ U, (body start).Asks U → Requests R T U := by
      intro U hU
      simp only [Requests, hl]
      exact ⟨start, hU⟩
    refine wp_mono (dfsProg_sound hrec hpath _ (hadm.fits T body hl start) hasks hw) ?_
    intro r u h
    rcases r with e | e | p
    · exact h
    · exact h
    · refine ⟨h.1, ?_, fun _ => h.2⟩
      rintro ⟨impl, hb⟩
      rw [hl] at hb
      cases hb
  | bind impl =>
    have hU : Requests R T impl := by simp only [Requests, hl]
    have hleads : Visit.Leads R ⟨path, .get, impl⟩ := fun V hV => .tail' (hpath V hV) hU
    have hask : wp (drec ⟨path, .get, impl⟩) (Gives ty R) w :=
      wp_mono (hrec _ w ⟨hw, hleads, by simp⟩) fun _ _ h => h.weaken fun _ => trivial
    refine wp_carry hask ?_
    rintro p u ⟨hu, hp⟩
    simp only [wp_change, wp_ret]
    have h := hu.emplace_impl T p hp
    exact ⟨h.1, fun _ => h.2, fun hn => absurd hl (hn impl)⟩
  | child =>
    simp only [dfsRecipe, wp_look, wp_change, wp_ret]
    refine ⟨hw.newChild, ?_, fun _ => rfl⟩
    rintro ⟨impl, hb⟩
    rw [hl] at hb
    cases hb

def Injected (R : AList fun _ : Hash_t => Recipe) (T : Hash_t) (d : DepType_t)
    (c : TypeContainer) (u : World) : Prop :=
  Stocked R u ∧ match d with
    | .REFERENCE => u.has_instance 0 T = true
    | .NEW_VALUE => c.has_value = true

theorem place_sound (hadm : Admissible ty R) (d : DepType_t)
    (hd : d = .NEW_VALUE → Creatable ty R T) {p : Option Addr} (hs : Supplied R T p w)
    (hR : ∃ recipe, R.lookup T = some recipe) :
    wp (capture (place ty 0 T d ⟨p, true⟩) : Comp World Exn (Except Exn TypeContainer))
      (Yields ty R True (Injected R T d)) w := by
  refine wp_capture ?_
  obtain ⟨hw, hbound, hfree⟩ := hs
  refine wp_place ty (fun ha => ?_) (fun _ hr => ?_) fun _ hr => ?_
  · cases d with
    | NEW_VALUE =>
      have hc := (hd rfl).1
      rw [ha] at hc
      cases hc
    | REFERENCE =>
      obtain ⟨recipe, hl⟩ := hR
      refine ⟨hw.destroyAll _, ?_⟩
      cases recipe with
      | fn body =>
        have hc := hadm.concrete T body hl
        rw [ha] at hc
        cases hc
      | bind impl => exact hbound ⟨impl, hl⟩
      | child =>
        have hc := hadm.child T hl
        rw [ha] at hc
        cases hc
  · subst hr
    exact ⟨hw, hfree (hd rfl).2⟩
  · subst hr
    refine hw.emplace_ptr T p ?_
    by_cases hb : ∃ impl, R.lookup T = some (.bind impl)
    · exact Or.inl (hbound hb)
    · exact Or.inr (hfree fun impl hl => hb ⟨impl, hl⟩)

theorem dfsClosure_sound (hadm : Admissible ty R) (hrec : AnswersAll ty R drec)
    (hpath : ∀ V ∈ path, Relation.ReflTransGen (Requests R) V T) (recipe : Recipe)
    (hl : R.lookup T = some recipe) (hw : Stocked R w) :
    wp (dfsClosure drec path T recipe)
      (Yields ty R True fun c u => ∃ p, c = ⟨p, true⟩ ∧ Supplied R T p u) w := by
  refine wp_carry (dfsRecipe_sound hadm hrec hpath recipe hl _ (hw.emit _)) ?_
  rintro p u ⟨hu, hbound, hfree⟩
  simp only [wp_change, wp_ret]
  exact ⟨p, rfl, hu.emit _, hbound, hfree⟩

theorem createInstance_sound (hw : Stocked R w) :
    wp (capture (createInstance ty T) : Comp World Exn (Except Exn TypeContainer))
      (Yields ty R True (Injected R T .NEW_VALUE)) w := by
  refine wp_capture ?_
  exact wp_createInstance ty (fun n _ => ⟨trivial, .user n⟩) fun _ => ⟨hw.alloc.emit _, rfl⟩

theorem emplaceDefault_sound (hw : Stocked R w) :
    wp (capture (emplaceDefault ty 0 T) : Comp World Exn (Except Exn TypeContainer))
      (Yields ty R True (Injected R T .REFERENCE)) w := by
  refine wp_capture ?_
  refine wp_emplaceDefault ty (fun hhas => ⟨hw, hhas⟩) (fun _ n _ => ⟨trivial, .user n⟩)
    fun _ _ => ?_
  have h := hw.alloc.emplace T (some (.obj w.fresh)) (Or.inr rfl)
  exact ⟨(h.1.emit _).emit _, h.2⟩

theorem dfsInject_sound (hadm : Admissible ty R) (hrec : AnswersAll ty R drec)
    (hpath : ∀ V ∈ path, Relation.ReflTransGen (Requests R) V T) (d : DepType_t)
    (hd : d = .NEW_VALUE → Creatable ty R T) (hw : Stocked R w) :
    wp (dfsInject ty drec path T d) (Yields ty R True (Injected R T d)) w := by
  unfold dfsInject
  rw [wp_look, hw.recipes]
  cases hl : R.lookup T with
  | some recipe =>
    refine wp_carry (dfsClosure_sound hadm hrec hpath recipe hl hw) ?_
    rintro c u ⟨p, rfl, hs⟩
    exact place_sound hadm d hd hs ⟨recipe, hl⟩
  | none =>
    dsimp only
    by_cases ha : ty.is_abstract T = true
    · rw [if_pos ha]
      exact (wp_ret _).mpr ⟨trivial, .noImpl hl ha⟩
    · rw [if_neg ha]
      by_cases hi : ty.default_initializable T = true
      · rw [if_pos hi]
        cases d with
        | NEW_VALUE => exact createInstance_sound hw
        | REFERENCE => exact emplaceDefault_sound hw
      · rw [if_neg hi]
        exact (wp_ret _).mpr ⟨trivial, .noRecipe hl (by simpa using hi)⟩

theorem record_has_instance (w : World) (T U : Hash_t) (d : DepType_t) :
    (record U d w).has_instance 0 T = w.has_instance 0 T := by
  simp [record, World.has_instance]

theorem dfsMake_sound (hadm : Admissible ty R) (hrec : AnswersAll ty R drec)
    (hleads : ∀ V ∈ path, Relation.TransGen (Requests R) V T) (d : DepType_t)
    (hd : d = .NEW_VALUE → Creatable ty R T) (hw : Stocked R w) :
    wp (dfsMake ty drec path T d) (Yields ty R (T ∈ path) (Injected R T d)) w := by
  unfold dfsMake
  by_cases hT : T ∈ path
  · rw [if_pos hT]
    exact (wp_ret _).mpr ⟨hT, .cycle (hleads T hT)⟩
  · have hpath : ∀ V ∈ insert T path, Relation.ReflTransGen (Requests R) V T := by
      intro V hV
      rcases Finset.mem_insert.mp hV with rfl | hV
      · exact .refl
      · exact (hleads V hV).to_reflTransGen
    rw [if_neg hT, wp_andThen]
    refine wp_mono (dfsInject_sound hadm hrec hpath d hd hw) ?_
    intro r u h
    rcases r with e | e | c
    · exact h
    · exact (wp_raise _).mpr h.2
    · simp only [wp_change, wp_ret]
      refine ⟨h.1.record T d, ?_⟩
      cases d with
      | NEW_VALUE => exact h.2
      | REFERENCE =>
        have hi := h.2
        exact (record_has_instance u T T .REFERENCE).trans hi

theorem refOf_sound {C : Prop} (hw : Stocked R w) (hi : w.has_instance 0 T = true) :
    wp (capture (refOf 0 T) : Comp World Exn Outcome)
      (Yields ty R C fun p u => Stocked R u ∧ p.isSome) w := by
  obtain ⟨c, hc⟩ := (TypeMap.has_key_iff _ T).mp hi
  refine wp_capture ?_
  exact wp_refOf_some hc ⟨hw.emit _, hw.nonNull T c hc⟩

theorem dfsBody_sound (hadm : Admissible ty R) (hrec : AnswersAll ty R drec) :
    AnswersAll ty R (dfsBody ty drec) := by
  rintro ⟨path, kind, T⟩ w ⟨hw, hleads, hc⟩
  cases kind with
  | get =>
    simp only [dfsBody, wp_change, wp_look]
    split
    · exact refOf_sound (hw.emit _) ‹_›
    · refine wp_carry (dfsMake_sound hadm hrec hleads .REFERENCE (by simp) (hw.emit _)) ?_
      intro c u h
      exact refOf_sound h.1 h.2
  | creat =>
    simp only [dfsBody, wp_change]
    refine wp_carry (dfsMake_sound hadm hrec hleads .NEW_VALUE (fun _ => hc rfl) (hw.emit _)) ?_
    rintro c u ⟨hu, hv⟩
    rw [if_pos hv, wp_ret]
    exact ⟨hu, hv⟩

theorem dfs_sound (hadm : Admissible ty R) (fuel : ℕ) : AnswersAll ty R (dfs ty fuel) := by
  induction fuel with
  | zero => intro v w _ r u h; cases h
  | succ fuel ih => exact dfsBody_sound hadm ih

end

/-! ### Sessions in which nothing has been thrown -/

/-- The operation does not throw, and what it asks of the recipes they can give. -/
def Proper (ty : Types) (w : World) (a : Op × Outcome) : Prop :=
  (∃ p, a.2 = .ok p) ∧ match a.1 with
    | .call c => Admissible ty (w.inj 0).recipeMap_ ∧
        (c.kind = .creat → Creatable ty (w.inj 0).recipeMap_ c.type)
    | _ => True

/-- A root injector on which no call has thrown. -/
def Unfailed (ty : Types) (w : World) : Prop := RunUnder (rootStep ty) (Proper ty) World.root w

/-- The root injector after such a session. -/
def World.Sound (w : World) : Prop := (∃ R, Stocked R w) ∧ w.Idle

section
variable {ty : Types} {w : World}

theorem root_sound : World.root.Sound := by
  obtain ⟨⟨R, hR⟩, hidle⟩ := root_atRest
  exact ⟨⟨R, hR, nonNull_construct 0 none⟩, hidle⟩

theorem insertRecipe_sound (h : w.Sound) (T : Hash_t) (recipe : Recipe) :
    (w.insertRecipe 0 T recipe).Sound := by
  obtain ⟨⟨R, hR⟩, hidle⟩ := h
  refine ⟨⟨_, insertRecipe_rooted hR.toRooted T recipe, ?_⟩, insertRecipe_idle hidle T recipe⟩
  have hmap : ((w.insertRecipe 0 T recipe).inj 0).typeMap_ = (w.inj 0).typeMap_ := by
    simp [insertRecipe_inj]
  rw [hmap]
  exact hR.nonNull

/-- What a call on a sound injector does, by what the run for it does. -/
theorem call_cases {R : AList fun _ : Hash_t => Recipe} (hR : Stocked R w) (hidle : w.Idle)
    (hadm : Admissible ty R) (kind : Kind) (T : Hash_t)
    (hc : kind = .creat → Creatable ty R T) :
    (∃ p, (w.visit ty kind T).1 = .ok (.ok p) ∧ (w.call ty ⟨kind, 0, T⟩).1 = .ok p ∧ p.isSome ∧
      (w.call ty ⟨kind, 0, T⟩).2.Sound) ∨
    (∃ e, (w.visit ty kind T).1 = .error e ∧ (w.call ty ⟨kind, 0, T⟩).1 = .error e ∧
      Cause ty R e) := by
  obtain ⟨hv, ht⟩ := call_tracks_visit hR.toRooted hidle kind T
  have ha : Answers ty R ⟨∅, kind, T⟩ (w.visit ty kind T).1 (w.visit ty kind T).2 :=
    dfs_sound hadm _ ⟨∅, kind, T⟩ w ⟨hR, by simp [Visit.Leads], hc⟩ _ _ hv
  generalize (w.visit ty kind T).1 = v at ha ht ⊢
  generalize (w.visit ty kind T).2 = u at ha ht
  cases ht with
  | same hb =>
    cases hr : (w.call ty ⟨kind, 0, T⟩).1 with
    | error e =>
      rw [hr] at ha
      exact absurd ha.1 (Finset.notMem_empty T)
    | ok p =>
      rw [hr] at ha
      have hn : ((w.call ty ⟨kind, 0, T⟩).2.inj 0).typeMap_.NonNull := by
        simpa using ha.1.nonNull
      exact Or.inl ⟨p, rfl, rfl, ha.2, ⟨R, hb.toRooted, hn⟩, (idle_book hb.toRooted).mpr hb⟩
  | @lost e _ _ hr => exact Or.inr ⟨e, rfl, hr hadm.rethrowing, ha⟩

theorem step_sound {a : Op × Outcome} {w' : World} (h : w.Sound) (hp : Proper ty w a)
    (hs : rootStep ty w a w') : w'.Sound := by
  obtain ⟨op, r⟩ := a
  obtain ⟨hroot, hrun⟩ := hs
  have hw' : (op.run ty w).2 = w' := congrArg Prod.snd hrun
  cases op with
  | call c =>
    obtain ⟨kind, i, T⟩ := c
    have hi : i = 0 := hroot
    subst hi hw'
    obtain ⟨⟨p, hp⟩, hadm, hc⟩ := hp
    obtain ⟨⟨R, hR⟩, hidle⟩ := h
    rw [hR.recipes] at hadm hc
    have hr : (w.call ty ⟨kind, 0, T⟩).1 = .ok p := (congrArg Prod.fst hrun).trans hp
    rcases call_cases hR hidle hadm kind T hc with ⟨p', _, _, _, hs⟩ | ⟨e, _, he, _⟩
    · exact hs
    · rw [hr] at he
      cases he
  | addRecipe i T body =>
    have hi : i = 0 := hroot
    subst hi hw'
    exact insertRecipe_sound h T _
  | bindImpl i Interface Implementation =>
    have hi : i = 0 := hroot
    subst hi hw'
    exact insertRecipe_sound h Interface _
  | destroy i => exact absurd hroot id

theorem unfailed_sound (h : Unfailed ty w) : w.Sound :=
  h.invariant World.Sound root_sound fun _ _ _ ht hp hs => step_sound ht hp hs

end

/-- On a root injector on which no call has thrown, every call ends; it throws exactly what
the injection that failed in the run of the recipes threw, a cycle only for a type that
depends on itself, and what else it throws says what is missing or was thrown by a recipe;
when no injection fails it returns an instance and leaves the bookkeeping clear. -/
theorem cycle_check_exact (ty : Types) (w : World) (h : Unfailed ty w)
    (hadm : Admissible ty (w.inj 0).recipeMap_) (kind : Kind) (T : Hash_t)
    (hc : kind = .creat → Creatable ty (w.inj 0).recipeMap_ T) :
    (∀ fuel, depth w 0 < fuel → exec ty fuel ⟨kind, 0, T⟩ w = some (w.call ty ⟨kind, 0, T⟩)) ∧
    (∀ e, (w.call ty ⟨kind, 0, T⟩).1 = .error e ↔ (w.visit ty kind T).1 = .error e) ∧
    (∀ e, (w.call ty ⟨kind, 0, T⟩).1 = .error e → Cause ty (w.inj 0).recipeMap_ e) ∧
    ((∀ e, (w.visit ty kind T).1 ≠ .error e) →
      ∃ a, (w.call ty ⟨kind, 0, T⟩).1 = .ok (some a) ∧ (w.call ty ⟨kind, 0, T⟩).2.Idle) := by
  obtain ⟨⟨R, hR⟩, hidle⟩ := unfailed_sound h
  have hends : ∀ fuel, depth w 0 < fuel →
      exec ty fuel ⟨kind, 0, T⟩ w = some (w.call ty ⟨kind, 0, T⟩) := fun fuel hf =>
    exec_eq_call ty ⟨kind, 0, T⟩ w hR.wf hR.lt hf
  rw [hR.recipes] at hadm hc ⊢
  rcases call_cases hR hidle hadm kind T hc with ⟨p, hv, hr, hp, hs⟩ | ⟨e, hv, hr, hcause⟩
  · refine ⟨hends, by simp [hv, hr], by simp [hr], fun _ => ?_⟩
    obtain ⟨a, ha⟩ := Option.isSome_iff_exists.mp hp
    exact ⟨a, by rw [hr, ha], hs.2⟩
  · refine ⟨hends, by simp [hv, hr], ?_, fun hne => absurd hv (hne e)⟩
    intro e' he
    rw [hr] at he
    cases he
    exact hcause

/-- 1 needs 2 and 3, which both need 4. -/
def diamond : World :=
  ((World.root.addCtorRecipe 0 1 [.ref 2, .ref 3]).addCtorRecipe 0 2 [.ref 4]).addCtorRecipe 0 3
    [.ref 4]

theorem diamond_unfailed : Unfailed plainTypes diamond := by
  have h1 : Unfailed plainTypes (World.root.addCtorRecipe 0 1 [.ref 2, .ref 3]) :=
    RunUnder.start.next (a := (.addRecipe 0 1 fun _ => ctorRecipe [.ref 2, .ref 3], .ok none))
      ⟨⟨none, rfl⟩, trivial⟩ ⟨rfl, rfl⟩
  have h2 : Unfailed plainTypes
      ((World.root.addCtorRecipe 0 1 [.ref 2, .ref 3]).addCtorRecipe 0 2 [.ref 4]) :=
    h1.next (a := (.addRecipe 0 2 fun _ => ctorRecipe [.ref 4], .ok none))
      ⟨⟨none, rfl⟩, trivial⟩ ⟨rfl, rfl⟩
  exact h2.next (a := (.addRecipe 0 3 fun _ => ctorRecipe [.ref 4], .ok none))
    ⟨⟨none, rfl⟩, trivial⟩ ⟨rfl, rfl⟩

theorem diamond_admissible : Admissible plainTypes (diamond.inj 0).recipeMap_ := by
  have h0 := admissible_construct plainTypes 0 none
  have hfits : ∀ (R : AList fun _ : Hash_t => Recipe) (Ts : List Hash_t) (m : ℕ),
      ((fun _ => ctorRecipe (Ts.map Dep.ref) : ℕ → Prog) m).Fits plainTypes R := by
    intro R Ts m
    exact ctorRecipe_fits plainTypes R _ (by simp)
  have h3 := ((h0.addRecipe (T := 1) rfl (hfits _ [2, 3])).addRecipe (T := 2) rfl
    (hfits _ [4])).addRecipe (T := 3) rfl (hfits _ [4])
  exact h3

/-- 4 is asked for twice, and the call returns. -/
theorem diamond_get :
    (∃ a, (diamond.call plainTypes ⟨.get, 0, 1⟩).1 = .ok (some a)) ∧
    (diamond.call plainTypes ⟨.get, 0, 1⟩).2.Idle := by
  obtain ⟨-, -, -, hret⟩ := cycle_check_exact plainTypes diamond diamond_unfailed
    diamond_admissible .get 1 fun h => by cases h
  have hv : (diamond.visit plainTypes .get 1).1 = .ok (.ok (some (.obj 3))) := by decide
  obtain ⟨a, ha, hidle⟩ := hret fun e he => by rw [hv] at he; cases he
  exact ⟨⟨a, ha⟩, hidle⟩

theorem fn_insert {R : AList fun _ : Hash_t => Recipe} {P : Hash_t → (ℕ → Prog) → Prop}
    {T : Hash_t} {body : ℕ → Prog} (h : ∀ U body', R.lookup U = some (.fn body') → P U body')
    (hT : P T body) :
    ∀ U body', (R.insert T (.fn body)).lookup U = some (.fn body') → P U body' := by
  intro U body' hl
  by_cases hU : U = T
  · subst hU
    rw [AList.lookup_insert] at hl
    cases hl
    exact hT
  · rw [AList.lookup_insert_ne hU] at hl
    exact h U body' hl

/-- 6 asks for 7 and goes on when that throws, as it does; it then needs 8, which needs 7. -/
def handling : World :=
  ((World.root.addRecipe 0 6 fun _ => .get 7 fun _ => ctorRecipe [.ref 8]).addRecipe 0 7
    fun _ => .throw (.user 5)).addCtorRecipe 0 8 [.ref 7]

theorem handling_unfailed : Unfailed plainTypes handling := by
  have h1 : Unfailed plainTypes
      (World.root.addRecipe 0 6 fun _ => .get 7 fun _ => ctorRecipe [.ref 8]) :=
    RunUnder.start.next
      (a := (.addRecipe 0 6 fun _ => .get 7 fun _ => ctorRecipe [.ref 8], .ok none))
      ⟨⟨none, rfl⟩, trivial⟩ ⟨rfl, rfl⟩
  have h2 : Unfailed plainTypes ((World.root.addRecipe 0 6 fun _ => .get 7 fun _ =>
      ctorRecipe [.ref 8]).addRecipe 0 7 fun _ => .throw (.user 5)) :=
    h1.next (a := (.addRecipe 0 7 fun _ => .throw (.user 5), .ok none))
      ⟨⟨none, rfl⟩, trivial⟩ ⟨rfl, rfl⟩
  exact h2.next (a := (.addRecipe 0 8 fun _ => ctorRecipe [.ref 7], .ok none))
    ⟨⟨none, rfl⟩, trivial⟩ ⟨rfl, rfl⟩

/-- What makes the run fail is the exception of 7, and yet a cycle is reported: the exception that
6 has handled left 7 on the path. -/
theorem handling_reports_cycle :
    (handling.call plainTypes ⟨.get, 0, 6⟩).1 = .error (.cycle 7) ∧
    (handling.visit plainTypes .get 6).1 = .error (.user 5) ∧
    ¬ ∀ (ty : Types) (w : World), Unfailed ty w →
      (∀ T body, (w.inj 0).recipeMap_.lookup T = some (.fn body) →
        ty.is_abstract T = false ∧ ∀ m, (body m).Finishes ty (w.inj 0).recipeMap_) →
      ∀ T U, (w.call ty ⟨.get, 0, T⟩).1 = .error (.cycle U) ↔
        (w.visit ty .get T).1 = .error (.cycle U) := by
  have hcall : (handling.call plainTypes ⟨.get, 0, 6⟩).1 = .error (.cycle 7) := by decide
  have hvisit : (handling.visit plainTypes .get 6).1 = .error (.user 5) := by decide
  refine ⟨hcall, hvisit, fun h => ?_⟩
  have hfits : ∀ T body, (handling.inj 0).recipeMap_.lookup T = some (.fn body) →
      plainTypes.is_abstract T = false ∧ ∀ m, (body m).Finishes plainTypes
        (handling.inj 0).recipeMap_ := by
    have hnew : ∀ T body, (Injector.construct 0 none).recipeMap_.lookup T = some (.fn body) →
        plainTypes.is_abstract T = false ∧ ∀ m, (body m).Finishes plainTypes
          (handling.inj 0).recipeMap_ := by
      intro T body hl
      cases (Injector.construct_recipe hl).2
    have hneeds : ∀ D, (ctorRecipe [.ref D]).Finishes plainTypes (handling.inj 0).recipeMap_ := by
      intro D r
      cases r with
      | error e => trivial
      | ok p => trivial
    refine fn_insert (fn_insert (fn_insert hnew ?_) ?_) ?_
    · exact ⟨rfl, fun _ _ => hneeds 8⟩
    · exact ⟨rfl, fun _ => trivial⟩
    · exact ⟨rfl, fun _ => hneeds 7⟩
  have hboth := (h plainTypes handling handling_unfailed hfits 6 7).mp hcall
  rw [hvisit] at hboth
  cases hboth

end Omulator.Di
