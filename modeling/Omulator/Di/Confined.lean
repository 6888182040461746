import Omulator.Di.CycleCheck

/-!
# What a call is confined to

Only the types that the type asked for leads to, through the requests of the recipes, get
instances from a call, and an exception of the injector names one of them. So when none of
these depends on itself or lacks a recipe it needs, only a recipe or a constructor can make
the call throw.
-/

namespace Omulator.Di
open Omulator.Lib Comp

/-- The type an exception names. -/
def Exn.names : Exn → Option Hash_t
  | .cycle T | .noImpl T | .noRecipe T | .creatFailed T => some T
  | .outOfRange | .user _ => none

/-- The recipes of `C` ask for nothing else. -/
def Closed (R : AList fun _ : Hash_t => Recipe) (C : Hash_t → Prop) : Prop :=
  ∀ T U, C T → Requests R T U → C U

/-- What is done from `w` on with types of `C` only: what it throws names one of them, and the
instances of the others are left as they are. -/
structure Confined (C : Hash_t → Prop) (w : World) {α : Type} (r : Except Exn α) (w' : World) :
    Prop where
  blames : ∀ e T, r = .error e → e.names = some T → C T
  spares : ∀ T, ¬ C T → (w'.inj 0).typeMap_.lookup T = (w.inj 0).typeMap_.lookup T

namespace Confined
variable {C : Hash_t → Prop} {α β : Type} {w w' w'' : World} {T : Hash_t}

theorem ok (a : α) (h : ∀ T, ¬ C T →
    (w'.inj 0).typeMap_.lookup T = (w.inj 0).typeMap_.lookup T) :
    Confined C w (.ok a : Except Exn α) w' := by
  refine ⟨?_, h⟩
  intro e T he
  cases he

theorem same (a : α) (h : (w'.inj 0).typeMap_ = (w.inj 0).typeMap_) :
    Confined C w (.ok a : Except Exn α) w' := .ok a fun T _ => by rw [h]

theorem placed (a : α) (hT : C T) (h : Placed 0 T w w') :
    Confined C w (.ok a : Except Exn α) w' := by
  refine .ok a fun U hU => h.lookup_ne (Or.inr ?_)
  rintro rfl
  exact hU hT

theorem throws {e : Exn} (hT : C T) (he : ∀ U, e.names = some U → U = T)
    (h : Placed 0 T w w') : Confined C w (.error e : Except Exn α) w' := by
  refine ⟨?_, fun U hU => h.lookup_ne (Or.inr ?_)⟩
  · intro e' U h hU
    cases h
    rwa [he U hU]
  · rintro rfl
    exact hU hT

theorem cast {e : Exn} (h : Confined C w (.error e : Except Exn α) w') :
    Confined C w (.error e : Except Exn β) w' := by
  refine ⟨?_, h.spares⟩
  intro e' U h' hU
  cases h'
  exact h.blames e U rfl hU

theorem trans {r : Except Exn α} {r' : Except Exn β} (h : Confined C w r w')
    (h' : Confined C w' r' w'') : Confined C w r' w'' :=
  ⟨h'.blames, fun T hT => (h'.spares T hT).trans (h.spares T hT)⟩

theorem of_emit {e : Event} {r : Except Exn α} (h : Confined C (w.emit e) r w') :
    Confined C w r w' := ⟨h.blames, h.spares⟩

end Confined

section
variable {ty : Types} {rec : Call → M (Option Addr)} {R : AList fun _ : Hash_t => Recipe}
  {C : Hash_t → Prop} {T : Hash_t} {w : World}

abbrev ConfinedTo (R : AList fun _ : Hash_t => Recipe) (C : Hash_t → Prop)
    (rec : Call → M (Option Addr)) : Prop :=
  ∀ kind T w, (Rooted R w ∧ C T) → wp (rec ⟨kind, 0, T⟩) (Confined C w) w

theorem request_confined (hext : Extends rec) (hrec : ConfinedTo R C rec) (kind : Kind)
    {U : Hash_t} {k : Outcome → Prog} (hw : Rooted R w) (hU : C U)
    (hthrow : ∀ e, k (.error e) = .throw e)
    (hrest : ∀ p w', Rooted R w' → wp (runProg rec 0 (k (.ok p))) (Confined C w') w') :
    wp (attempt (rec ⟨kind, 0, U⟩) fun r => runProg rec 0 (k r)) (Confined C w) w := by
  rw [wp_attempt]
  have hroot := hext ⟨kind, 0, U⟩ w ⟨hw.wf, hw.lt⟩
  refine wp_mono (wp_and (hrec kind U w ⟨hw, hU⟩) hroot) ?_
  intro r w' h
  obtain ⟨hb, he⟩ := h
  cases r with
  | error e =>
    rw [hthrow e, runProg, wp_raise]
    exact hb
  | ok p => exact wp_mono (hrest p w' (hw.ext he)) fun _ _ h => hb.trans h

theorem runProg_confined (hext : Extends rec) (hrec : ConfinedTo R C rec) (p : Prog)
    (hfits : p.Fits ty R) (hasks : ∀ U, p.Asks U → C U) (hw : Rooted R w) :
    wp (runProg rec 0 p) (Confined C w) w := by
  induction p generalizing w with
  | new =>
    rw [runProg, wp_look, wp_change, wp_ret]
    exact .same _ rfl
  | ret p =>
    rw [runProg, wp_ret]
    exact .same p rfl
  | throw e =>
    obtain ⟨n, rfl⟩ := hfits
    rw [runProg, wp_raise]
    refine ⟨?_, fun _ _ => rfl⟩
    intro e' U h hU
    cases h
    cases hU
  | get U k ih =>
    refine request_confined hext hrec .get hw (hasks U (Or.inl rfl)) hfits.1 ?_
    intro p w' hw'
    exact ih _ (hfits.2 p) (fun V hV => hasks V (Or.inr ⟨_, hV⟩)) hw'
  | creat U k ih =>
    refine request_confined hext hrec .creat hw (hasks U (Or.inl rfl)) hfits.2.1 ?_
    intro p w' hw'
    exact ih _ (hfits.2.2 p) (fun V hV => hasks V (Or.inr ⟨_, hV⟩)) hw'

theorem recipeClosure_confined (hadm : Admissible ty R) (hC : Closed R C) (hext : Extends rec)
    (hrec : ConfinedTo R C rec) {recipe : Recipe} (hl : R.lookup T = some recipe) (hT : C T)
    (hw : Rooted R w) : wp (recipeClosure rec 0 T recipe 0) (Confined C w) w := by
  have hw' : Rooted R (w.emit (.recipe T 0 0)) := hw.stays ((Placed.refl 0 T w).emit _)
  have hreq : ∀ U, Requests R T U → C U := fun U hU => hC T U hT hU
  refine wp_recipeClosure_cases rec (fun body hb => ?_) (fun impl hb => ?_) fun _ => ?_
  · subst hb
    have hasks : ∀ U, (body w.trace.length).Asks U → C U := by
      intro U hU
      refine hreq U ?_
      rw [Requests, hl]
      exact ⟨_, hU⟩
    refine wp_mono (runProg_confined hext hrec _ (hadm.fits T body hl _) hasks hw') ?_
    intro r w' h
    cases r with
    | error e => exact h.of_emit.cast
    | ok p => exact .ok _ h.spares
  · subst hb
    have himpl : C impl := by
      refine hreq impl ?_
      rw [Requests, hl]
    refine wp_mono (hrec .get impl _ ⟨hw', himpl⟩) ?_
    intro r w' h
    cases r with
    | error e => exact h.of_emit.cast
    | ok p => exact h.of_emit.trans (.placed _ hT ((Placed.emplace_impl 0 T p w').emit _))
  · have h0 : 0 ≠ (w.emit (.recipe T 0 0)).count := Nat.ne_of_lt hw.lt
    refine .same _ ?_
    rw [World.emit_inj, World.newChild_inj_ne _ _ _ h0, World.emit_inj]

theorem inject_confined (hadm : Admissible ty R) (hC : Closed R C) (hext : Extends rec)
    (hrec : ConfinedTo R C rec) (d : DepType_t) (hT : C T) (hw : Rooted R w) :
    wp (inject_ ty rec 0 T d) (Confined C w) w := by
  have hrefl : Placed 0 T w w := .refl 0 T w
  refine wp_inject ty rec (fun owner recipe hf => ?_) (fun e _ he => ?_) (fun _ _ _ _ => ?_)
    fun _ _ _ _ => ?_
  · rw [find_recipe_root hw] at hf
    cases hl : R.lookup T with
    | none =>
      rw [hl] at hf
      cases hf
    | some recipe' =>
      rw [hl] at hf
      cases hf
      refine wp_mono (recipeClosure_confined hadm hC hext hrec hl hT hw) ?_
      intro r w' h
      cases r with
      | error e => exact h
      | ok c =>
        refine wp_place ty (fun _ => h.trans (.same _ rfl)) (fun _ _ => h.trans (.same _ rfl))
          fun _ _ => h.trans (.placed _ hT (.emplace_ptr 0 T _ w'))
  · rcases he with ⟨_, rfl⟩ | ⟨_, rfl⟩
    · exact .throws hT (fun U hU => (Option.some.inj hU).symm) hrefl
    · exact .throws hT (fun U hU => (Option.some.inj hU).symm) hrefl
  · exact wp_createInstance ty (fun n _ => .throws hT (by simp [Exn.names]) hrefl)
      fun _ => .same _ rfl
  · refine wp_mono (wp_and (emplaceDefault_placed 0 T w)
      (wp_emplaceDefault ty (Q := fun r _ => ∀ e, r = .error e → ∃ n, e = .user n)
        (fun _ _ h => by cases h) (fun _ n _ e h => ⟨n, (Except.error.inj h).symm⟩)
        fun _ _ _ h => by cases h)) ?_
    rintro r w' ⟨hp, hthrow⟩
    cases r with
    | error e =>
      obtain ⟨n, rfl⟩ := hthrow e rfl
      exact .throws hT (by simp [Exn.names]) hp
    | ok c => exact .placed c hT hp

theorem makeDependency_confined (hadm : Admissible ty R) (hC : Closed R C) (hext : Extends rec)
    (hrec : ConfinedTo R C rec) (d : DepType_t) (hT : C T) (hw : Rooted R w) :
    wp (makeDependency_ ty rec 0 T d) (Confined C w) w := by
  refine wp_makeDependency ty rec (fun _ _ => ?_) fun _ => ?_
  · exact .throws hT (fun U hU => (Option.some.inj hU).symm) (.refl 0 T w)
  · have hent : Confined C w (.ok () : Except Exn Unit) (enter 0 T w) :=
      .same () (enter_typeMap 0 0 T w)
    refine wp_mono (inject_confined hadm hC hext hrec d hT (hw.ext (Ext.enter 0 T w))) ?_
    intro r w' h
    cases r with
    | error e => exact hent.trans h
    | ok c => exact (hent.trans h).trans (.same c (leave_typeMap 0 0 T d _ w'))

theorem callBody_confined (hadm : Admissible ty R) (hC : Closed R C) (hext : Extends rec)
    (hrec : ConfinedTo R C rec) : ConfinedTo R C (callBody ty rec) := by
  rintro kind T w ⟨hw, hT⟩
  have hemit : ∀ e, Rooted R (w.emit e) := fun e => hw.stays ((Placed.refl 0 T w).emit e)
  have href : ∀ u, wp (refOf 0 T) (Confined C u) u := fun u =>
    wp_refOf (fun _ => .throws hT (by simp [Exn.names]) (.refl 0 T u)) fun _ _ => .same _ rfl
  cases kind with
  | get =>
    refine wp_get ty rec (fun _ _ => wp_mono (href _) fun _ _ h => h.of_emit)
      (fun _ q hq _ => ?_) fun _ _ => ?_
    · rw [hw.root] at hq
      cases hq
    · refine wp_mono (makeDependency_confined hadm hC hext hrec .REFERENCE hT (hemit _)) ?_
      intro r w' h
      cases r with
      | error e => exact h.of_emit.cast
      | ok c => exact wp_mono (href w') fun _ _ h' => h.of_emit.trans h'
  | creat =>
    refine wp_creat ty rec ?_
    refine wp_mono (makeDependency_confined hadm hC hext hrec .NEW_VALUE hT (hemit _)) ?_
    intro r w' h
    cases r with
    | error e => exact h.of_emit.cast
    | ok c =>
      refine ⟨fun _ => h.of_emit.trans (.same _ rfl), fun _ => h.of_emit.trans ?_⟩
      exact .throws hT (fun U hU => (Option.some.inj hU).symm) (.refl 0 T w')

theorem exec_confined (hadm : Admissible ty R) (hC : Closed R C) (fuel : ℕ) :
    ConfinedTo R C (exec ty fuel) := by
  induction fuel with
  | zero => intro kind T w _ r w' h; cases h
  | succ fuel ih => exact callBody_confined hadm hC (exec_ext fuel) ih

/-- The types that a request for `T` can lead to. -/
abbrev LeadsTo (R : AList fun _ : Hash_t => Recipe) (T : Hash_t) : Hash_t → Prop :=
  Relation.ReflTransGen (Requests R) T

theorem leadsTo_closed (T : Hash_t) : Closed R (LeadsTo R T) := fun _ _ hU hV => hU.tail hV

theorem call_leads (hw : Rooted R w) (hadm : Admissible ty R) (kind : Kind) (T : Hash_t) :
    Confined (LeadsTo R T) w (w.call ty ⟨kind, 0, T⟩).1 (w.call ty ⟨kind, 0, T⟩).2 :=
  call_of_wp hw.wf hw.lt fun fuel =>
    exec_confined hadm (leadsTo_closed T) fuel kind T w ⟨hw, .refl⟩

end

/-- Nothing `T` leads to depends on itself or lacks the recipe it needs. -/
structure Complete (ty : Types) (R : AList fun _ : Hash_t => Recipe) (T : Hash_t) : Prop where
  acyclic : ∀ U, LeadsTo R T U → ¬ Cyclic R U
  made : ∀ U, LeadsTo R T U → R.lookup U = none →
    ty.is_abstract U = false ∧ ty.default_initializable U = true

section
variable {ty : Types} {R : AList fun _ : Hash_t => Recipe} {w : World} {T : Hash_t}

/-- A call for a complete type gives an instance or what a recipe or a constructor threw. -/
theorem call_complete (hR : Stocked R w) (hidle : w.Idle) (hadm : Admissible ty R) (kind : Kind)
    (hT : Complete ty R T) (hc : kind = .creat → Creatable ty R T) :
    (∃ a, (w.call ty ⟨kind, 0, T⟩).1 = .ok (some a) ∧ Stocked R (w.call ty ⟨kind, 0, T⟩).2 ∧
      (w.call ty ⟨kind, 0, T⟩).2.Idle) ∨
    ∃ n, (w.call ty ⟨kind, 0, T⟩).1 = .error (.user n) := by
  have hleads := (call_leads hR.toRooted hadm kind T).blames
  rcases call_cases hR hidle hadm kind T hc with ⟨p, _, hr, hp, hs⟩ | ⟨e, _, hr, hcause⟩
  · obtain ⟨a, rfl⟩ := Option.isSome_iff_exists.mp hp
    obtain ⟨⟨R', hR'⟩, hidle'⟩ := hs
    have hroot : Rooted R (w.call ty ⟨kind, 0, T⟩).2 :=
      hR.toRooted.ext (call_ext (c := ⟨kind, 0, T⟩) hR.wf hR.lt)
    exact Or.inl ⟨a, hr, ⟨hroot, hR'.nonNull⟩, hidle'⟩
  · right
    cases hcause with
    | @cycle U hU => exact absurd hU (hT.acyclic U (hleads _ U hr rfl))
    | @noImpl U hl ha =>
      have hm := (hT.made U (hleads _ U hr rfl) hl).1
      rw [ha] at hm
      cases hm
    | @noRecipe U hl hd =>
      have hm := (hT.made U (hleads _ U hr rfl) hl).2
      rw [hd] at hm
      cases hm
    | user n => exact ⟨n, hr⟩

/-- On a root injector on which no call has thrown: a call leaves the instances of the types
that its own does not lead to as they are, an exception of the injector names a type that it
leads to, and when these are complete only a recipe or a constructor throws. -/
theorem call_confined (ty : Types) (w : World) (h : Unfailed ty w)
    (hadm : Admissible ty (w.inj 0).recipeMap_) (kind : Kind) (T : Hash_t)
    (hc : kind = .creat → Creatable ty (w.inj 0).recipeMap_ T) :
    (∀ U, ¬ LeadsTo (w.inj 0).recipeMap_ T U →
      ((w.call ty ⟨kind, 0, T⟩).2.inj 0).typeMap_.lookup U = (w.inj 0).typeMap_.lookup U) ∧
    (∀ e U, (w.call ty ⟨kind, 0, T⟩).1 = .error e → e.names = some U →
      LeadsTo (w.inj 0).recipeMap_ T U) ∧
    (Complete ty (w.inj 0).recipeMap_ T →
      (∃ a, (w.call ty ⟨kind, 0, T⟩).1 = .ok (some a)) ∨
      ∃ n, (w.call ty ⟨kind, 0, T⟩).1 = .error (.user n)) := by
  obtain ⟨⟨R, hR⟩, hidle⟩ := unfailed_sound h
  rw [hR.recipes] at hadm hc ⊢
  have hconf := call_leads hR.toRooted hadm kind T
  refine ⟨hconf.spares, hconf.blames, fun hT => ?_⟩
  refine (call_complete hR hidle hadm kind hT hc).imp_left ?_
  rintro ⟨a, ha, _⟩
  exact ⟨a, ha⟩

end

theorem diamond_leadsTo {U : Hash_t} (h : LeadsTo (diamond.inj 0).recipeMap_ 2 U) :
    U = 2 ∨ U = 4 := by
  induction h with
  | refl => exact Or.inl rfl
  | tail _ hr ih =>
    rcases ih with rfl | rfl
    · obtain ⟨_, hm⟩ : ∃ _ : ℕ, (ctorRecipe [.ref 4]).Asks _ := hr
      rcases hm with rfl | ⟨r, hr⟩
      · exact Or.inr rfl
      · cases r <;> exact hr.elim
    · exact (hr : False).elim

/-- In the diamond, asking for one side leaves the other alone. -/
theorem diamond_other_side :
    ((diamond.call plainTypes ⟨.get, 0, 2⟩).2.inj 0).typeMap_.lookup 3 = none := by
  obtain ⟨hsame, -, -⟩ := call_confined plainTypes diamond diamond_unfailed diamond_admissible
    .get 2 fun h => by cases h
  rw [hsame 3 fun h => by rcases diamond_leadsTo h with h | h <;> cases h]
  decide

end Omulator.Di
