import Omulator.Di.Stability

/-!
# What a request runs

A request that makes an object runs the recipe it has found once, or the default constructor,
and nothing after it. What the recipe itself asks for is answered as by any other request.
-/

namespace Omulator.Di
open Omulator.Lib Comp

/-! ### The run of a recipe -/

def requests (ty : Types) (c : Call) : M (Option Addr) := fun w => some (w.call ty c)

theorem wp_requests {ty : Types} {c : Call} {Q : Outcome → World → Prop} {w : World} :
    wp (requests ty c) Q w ↔ Q (w.call ty c).1 (w.call ty c).2 := by
  refine ⟨fun h => h _ _ rfl, fun h r u hcall => ?_⟩
  have hpair : w.call ty c = (r, u) := Option.some.inj hcall
  rwa [hpair] at h

def recipeRun (ty : Types) (kind : Kind) (i : ℕ) (T : Hash_t) (o : ℕ) (r : Recipe) (w : World) :
    Option (Outcome × World) :=
  runRecipe (requests ty) o T (w.trace.length + 1) r
    ((enter i T (w.emit (.asked kind i T))).emit (.recipe T i o))

/-- The event begins a request, runs a recipe or default-initializes. -/
def Event.isWork : Event → Bool
  | .asked _ _ _ | .recipe _ _ _ | .built _ _ => true
  | _ => false

/-- What a request for `T` that was made of `i` in `w`, and gave `res`, has run: one recipe, and
nothing after it, or the default constructor, and nothing else. -/
def Uses (ty : Types) (kind : Kind) (i : ℕ) (T : Hash_t) (w w' : World) (res : Option Addr) :
    Option (ℕ × Recipe) → Prop
  | some (o, r) => ∃ p u rest, recipeRun ty kind i T o r w = some (.ok p, u) ∧
      w'.trace = u.trace ++ .recipeEnd (w.trace.length + 1) p :: rest ∧
      (∀ e ∈ rest, e.isWork = false) ∧ ∀ a, p = some a → res = p
  | none => ∃ a rest, w'.trace = w.trace ++ .asked kind i T :: .built T a :: rest ∧
      (∀ e ∈ rest, e.isWork = false) ∧ res = some a

section
variable {ty : Types} {rec : Call → M (Option Addr)} {w w' : World} {i : ℕ} {T : Hash_t}

theorem held_enter {o : ℕ} {u : World} (ho : o ≤ i) (hi : i < w.count)
    (hn : (w.inj i).typeMap_.lookup T = none) (h : Ext o (enter i T w) u) :
    (u.inj i).typeMap_.lookup T = none := by
  have hne : ((enter i T w).inj i).typeMap_.lookup T = none := by rw [enter_typeMap, hn]
  rcases Nat.lt_or_eq_of_le ho with hlt | rfl
  · rw [h.below i hi hlt]
    exact hne
  · have hflag : ((enter o T w).inj o).isInCycleCheck_ = true := by rw [enter_inj_self]
    have hmem : T ∈ ((enter o T w).inj o).typeHashStack_ := by simp [enter_inj_self]
    rw [h.held o hi le_rfl hflag T hmem]
    exact hne

theorem find_recipe_enter (w : World) (i n j : ℕ) (T U : Hash_t) (e : Event) :
    (enter i T (w.emit e)).find_recipe_ U n j = w.find_recipe_ U n j :=
  find_recipe_congr (w := w) U (fun k => enter_recipes i k T (w.emit e))
    (fun k => enter_upstream i k T (w.emit e)) n j

theorem runProg_requests (fuel i : ℕ) (p : Prog) (w : World) (hw : w.WF) (hi : i < w.count) :
    wp (runProg (exec ty fuel) i p) (fun r u => runProg (requests ty) i p w = some (r, u)) w := by
  induction p generalizing w with
  | new => intro r u h; exact h
  | ret p => intro r u h; exact h
  | throw e => intro r u h; exact h
  | get U k ih | creat U k ih =>
    rw [runProg, wp_attempt]
    refine wp_mono (wp_and (wp_exec_call hw hi fuel) (exec_ext fuel _ w ⟨hw, hi⟩)) ?_
    rintro r u ⟨hcall, hext⟩
    refine wp_mono (ih r u (hext.wf hi hw) (Nat.lt_of_lt_of_le hi hext.count)) ?_
    intro r' u' h
    rw [runProg, attempt, requests, hcall]
    exact h

theorem runRecipe_requests (fuel o : ℕ) (T : Hash_t) (start : ℕ) (r : Recipe) (hw : w.WF)
    (ho : o < w.count) : wp (runRecipe (exec ty fuel) o T start r)
      (fun res u => runRecipe (requests ty) o T start r w = some (res, u)) w := by
  cases r with
  | fn body => exact runProg_requests fuel o (body start) w hw ho
  | bind impl =>
    rw [runRecipe, wp_andThen]
    refine wp_mono (wp_exec_call (c := ⟨.get, o, impl⟩) hw ho fuel) ?_
    intro r u hcall
    cases r with
    | error e =>
      rw [runRecipe, andThen, attempt, requests, hcall]
      rfl
    | ok p =>
      refine wp_change.mpr ((wp_ret _).mpr ?_)
      rw [runRecipe, andThen, attempt, requests, hcall]
      rfl
  | child => intro r u h; exact h

/-- What an injection has run, and what it is left to do when that has returned. -/
theorem inject_runs (kind : Kind) {d : DepType_t} (fuel : ℕ) (hw : w.WF) (hi : i < w.count) :
    wp (inject_ ty (exec ty fuel) i T d) (fun res w' =>
      match w.find_recipe_ T (i + 1) i with
      | some (o, r) => ∃ res' u, recipeRun ty kind i T o r w = some (res', u) ∧
          match res' with
          | .error e => res = .error e ∧ w' = u
          | .ok p => place ty i T d ⟨p, true⟩ (u.emit (.recipeEnd (w.trace.length + 1) p)) =
              some (res, w')
      | none => ∀ c, res = .ok c → ty.is_abstract T = false ∧ (match d with
          | .NEW_VALUE => createInstance ty T
          | .REFERENCE => emplaceDefault ty i T) (enter i T (w.emit (.asked kind i T))) =
            some (.ok c, w'))
      (enter i T (w.emit (.asked kind i T))) := by
  generalize hv : enter i T (w.emit (.asked kind i T)) = v
  have hent : Ext i w v := (Ext.emit i w _).trans hi (hv ▸ Ext.enter i T _)
  have hvw : v.WF := hent.wf hi hw
  have hvi : i < v.count := Nat.lt_of_lt_of_le hi hent.count
  have hfind : v.find_recipe_ T (i + 1) i = w.find_recipe_ T (i + 1) i := by
    rw [← hv]
    exact find_recipe_enter w i (i + 1) i T T _
  have hlen : v.trace.length = w.trace.length + 1 := by simp [← hv]
  rw [← hfind]
  refine wp_inject ty _ (fun o r hf => ?_) (fun e hf _ => ?_) (fun hf hab _ hd => ?_)
    fun hf hab _ hd => ?_
  · have ho : o < v.count := lt_of_le_of_lt ((find_recipe_some hf).1.le hvw hvi) hvi
    have hstart : (v.emit (.recipe T i o)).WF := hvw
    simp only [hf]
    refine wp_recipeClosure _ ?_
    refine wp_mono (runRecipe_requests fuel o T v.trace.length r hstart ho) ?_
    intro res u hrun
    have hrec : recipeRun ty kind i T o r w = some (res, u) := by
      rw [recipeRun, hv, ← hlen]
      exact hrun
    cases res with
    | error e => exact ⟨_, u, hrec, rfl, rfl⟩
    | ok p =>
      intro res' w' hplace
      refine ⟨_, u, hrec, ?_⟩
      rw [← hlen]
      exact hplace
  · rw [hf]
    intro c hc
    cases hc
  · subst hd
    intro res w' hrun
    rw [hf]
    rintro c rfl
    exact ⟨hab, hrun⟩
  · subst hd
    intro res w' hrun
    rw [hf]
    rintro c rfl
    exact ⟨hab, hrun⟩

theorem recipeRun_ok {kind : Kind} {d : DepType_t} {o : ℕ} {r : Recipe} {c : TypeContainer}
    (h : ∃ res' u, recipeRun ty kind i T o r w = some (res', u) ∧
      match res' with
      | .error e => (.ok c : Except Exn TypeContainer) = .error e ∧ w' = u
      | .ok p => place ty i T d ⟨p, true⟩ (u.emit (.recipeEnd (w.trace.length + 1) p)) =
          some (.ok c, w')) :
    ∃ p u, recipeRun ty kind i T o r w = some (.ok p, u) ∧
      place ty i T d ⟨p, true⟩ (u.emit (.recipeEnd (w.trace.length + 1) p)) = some (.ok c, w') := by
  obtain ⟨res', u, hrun, hrest⟩ := h
  cases res' with
  | error e => cases hrest.1
  | ok p => exact ⟨p, u, hrun, hrest⟩

theorem creat_runs (fuel : ℕ) (hw : w.WF) (hi : i < w.count) :
    wp (exec ty fuel ⟨.creat, i, T⟩) (fun res w' => ∀ q, res = .ok q →
      match w.find_recipe_ T (i + 1) i with
      | some (o, r) => ∃ a u, q = some a ∧
          recipeRun ty .creat i T o r w = some (.ok (some a), u) ∧
          w' = leave i T .NEW_VALUE (w.inj i).isInCycleCheck_
            (u.emit (.recipeEnd (w.trace.length + 1) (some a)))
      | none => q = some (.obj w.fresh) ∧
          w' = leave i T .NEW_VALUE (w.inj i).isInCycleCheck_
            ((enter i T (w.emit (.asked .creat i T))).alloc.emit (.built T (.obj w.fresh)))) w := by
  cases fuel with
  | zero => intro r u h; cases h
  | succ fuel =>
    change wp (callBody ty (exec ty fuel) ⟨.creat, i, T⟩) _ w
    refine wp_creat ty _ (wp_makeDependency ty _ (fun _ _ q hq => by cases hq) fun _ => ?_)
    refine wp_mono (inject_runs _ fuel hw hi) ?_
    intro res u₁ h
    cases res with
    | error e =>
      intro q hq
      cases hq
    | ok c =>
      refine ⟨fun hv q hq => ?_, fun _ q hq => by cases hq⟩
      obtain rfl : c.ptr_ = q := by simpa using hq
      cases hf : w.find_recipe_ T (i + 1) i with
      | some found =>
        obtain ⟨o, r⟩ := found
        simp only [hf] at h
        obtain ⟨p, u, hrun, hplace⟩ := recipeRun_ok h
        by_cases hab : ty.is_abstract T = true
        · rw [place, if_pos hab] at hplace
          cases hplace
          cases hv
        · rw [place, if_neg hab] at hplace
          cases hplace
          cases p with
          | none => cases hv
          | some a => exact ⟨a, u, rfl, hrun, rfl⟩
      | none =>
        simp only [hf] at h
        obtain ⟨_, hmake⟩ := h c rfl
        simp only [createInstance, look] at hmake
        cases hctor : ty.ctor T (enter i T (w.emit (.asked .creat i T))).trace.length with
        | some n =>
          rw [hctor] at hmake
          cases hmake
        | none =>
          rw [hctor] at hmake
          cases hmake
          exact ⟨rfl, rfl⟩

theorem uses_of_creat (fuel : ℕ) (hw : w.WF) (hi : i < w.count) :
    wp (exec ty fuel ⟨.creat, i, T⟩) (fun res w' => ∀ q, res = .ok q →
      Uses ty .creat i T w w' q (w.find_recipe_ T (i + 1) i)) w := by
  refine wp_mono (creat_runs fuel hw hi) ?_
  intro res w' h q hq
  have hruns := h q hq
  cases hf : w.find_recipe_ T (i + 1) i with
  | some found =>
    obtain ⟨o, r⟩ := found
    simp only [hf] at hruns
    obtain ⟨a, u, rfl, hrun, rfl⟩ := hruns
    exact ⟨some a, u, [], hrun, by simp, by simp, fun _ _ => rfl⟩
  | none =>
    simp only [hf] at hruns
    obtain ⟨rfl, rfl⟩ := hruns
    exact ⟨_, [], by simp, by simp, rfl⟩

/-! ### The first `get` -/

theorem requests_ext (ty : Types) : Extends (requests ty) := by
  rintro c w ⟨hw, hi⟩ r u h
  have hcall : w.call ty c = (r, u) := Option.some.inj h
  have hext : Ext c.inj w (w.call ty c).2 := call_ext hw hi
  rwa [hcall] at hext

theorem runRecipe_bind {rec : Call → M (Option Addr)} (o : ℕ) (T : Hash_t) (start : ℕ)
    (impl : Hash_t) (w : World) : wp (runRecipe rec o T start (.bind impl))
      (fun res _ => ∀ p, res = .ok p → p = none) w := by
  rw [runRecipe, wp_andThen]
  intro res u _
  cases res with
  | error e =>
    intro p hp
    cases hp
  | ok p =>
    refine wp_change.mpr ((wp_ret _).mpr ?_)
    intro q hq
    cases hq
    rfl

theorem recipeRun_ext {kind : Kind} {o : ℕ} {r : Recipe} {a : Addr} {u : World} (hw : w.WF)
    (hi : i < w.count) (ho : o ≤ i) (h : recipeRun ty kind i T o r w = some (.ok (some a), u)) :
    Ext o (enter i T (w.emit (.asked kind i T))) u := by
  generalize hv : enter i T (w.emit (.asked kind i T)) = v
  have hent : Ext i w v := (Ext.emit i w _).trans hi (hv ▸ Ext.enter i T _)
  have hvo : o < v.count := Nat.lt_of_le_of_lt ho (Nat.lt_of_lt_of_le hi hent.count)
  have hemit := Ext.emit o v (.recipe T i o)
  have hvw : (v.emit (.recipe T i o)).WF := hemit.wf hvo (hent.wf hi hw)
  rw [recipeRun, hv] at h
  cases r with
  | fn body => exact hemit.trans hvo (runProg_ext (requests_ext ty) o _ _ hvw hvo _ _ h)
  | bind impl =>
    have hnone := runRecipe_bind o T _ impl _ _ _ h _ rfl
    cases hnone
  | child =>
    cases h
    exact hemit.trans hvo (.newChild o _)

theorem emplace_ptr_log (w : World) (i : ℕ) (T : Hash_t) (p : Option Addr) :
    ∃ log, (w.emplace_ptr i T p).trace = w.trace ++ log ∧ (∀ e ∈ log, e.isWork = false) ∧
      ∀ a, .destroyed a ∈ log → p = some a := by
  have hdel : ∀ a, a ∈ ((w.inj i).typeMap_.emplace_ptr T p).2 → p = some a := by
    intro a ha
    cases hk : (w.inj i).typeMap_.has_key T with
    | true =>
      rw [TypeMap.emplace_ptr_of_has hk] at ha
      simpa using ha
    | false =>
      rw [TypeMap.emplace_ptr_of_not_has hk] at ha
      cases ha
  have hput : (∀ e ∈ ((w.inj i).typeMap_.emplace_ptr T p).2.map Event.destroyed,
      e.isWork = false) ∧ ∀ a, .destroyed a ∈
        ((w.inj i).typeMap_.emplace_ptr T p).2.map Event.destroyed → p = some a := by
    constructor
    · intro e he
      obtain ⟨b, _, rfl⟩ := List.mem_map.mp he
      rfl
    · intro a ha
      obtain ⟨b, hb, hba⟩ := List.mem_map.mp ha
      cases hba
      exact hdel a hb
  unfold World.emplace_ptr
  cases p with
  | none => exact ⟨_, rfl, hput⟩
  | some a =>
    dsimp only
    split
    · exact ⟨_, rfl, hput⟩
    · refine ⟨_, by rw [World.emit_trace, World.onTypeMap_trace, List.append_assoc], ?_, ?_⟩
      · intro e he
        rcases List.mem_append.mp he with he | he
        · exact hput.1 e he
        · rw [List.mem_singleton.mp he]
          rfl
      · intro b hb
        rcases List.mem_append.mp hb with hb | hb
        · exact hput.2 b hb
        · cases List.mem_singleton.mp hb

theorem recipeRun_absent {kind : Kind} {o : ℕ} {r : Recipe} {a : Addr} {u : World} (hw : w.WF)
    (hi : i < w.count) (hn : (w.inj i).typeMap_.lookup T = none) (ho : o ≤ i)
    (h : recipeRun ty kind i T o r w = some (.ok (some a), u)) :
    (u.inj i).typeMap_.lookup T = none :=
  held_enter ho (w := w.emit (.asked kind i T)) hi hn (recipeRun_ext hw hi ho h)

/-- What is done with the container of a recipe is no work, and what is found in the map then is
what the recipe has returned. -/
theorem uses_of_place {o : ℕ} {r : Recipe} {p : Option Addr} {u u₁ : World} {c c' : TypeContainer}
    {b : Bool} (hrun : recipeRun ty .get i T o r w = some (.ok p, u))
    (hfree : ∀ a, p = some a → (u.inj i).typeMap_.lookup T = none)
    (hplace : place ty i T .REFERENCE ⟨p, true⟩ (u.emit (.recipeEnd (w.trace.length + 1) p)) =
      some (.ok c, u₁)) (hl : (u₁.inj i).typeMap_.lookup T = some c') :
    Uses ty .get i T w ((leave i T .REFERENCE b u₁).emit (.got i T c'.ptr_)) c'.ptr_
      (some (o, r)) := by
  by_cases hab : ty.is_abstract T = true
  · rw [place, if_pos hab] at hplace
    cases hplace
    refine ⟨p, u, p.toList.map .destroyed ++ [.got i T c'.ptr_], hrun, ?_, ?_, ?_⟩
    · simp [TypeContainer.release_]
    · intro e he
      rcases List.mem_append.mp he with he | he
      · obtain ⟨b, _, rfl⟩ := List.mem_map.mp he
        rfl
      · rw [List.mem_singleton.mp he]
        rfl
    · intro a hp
      have hnone := hfree a hp
      rw [World.destroyAll_inj, World.emit_inj, hnone] at hl
      cases hl
  · rw [place, if_neg hab] at hplace
    cases hplace
    obtain ⟨log, hlog, hquiet, _⟩ := emplace_ptr_log
      (u.emit (.recipeEnd (w.trace.length + 1) p)) i T p
    refine ⟨p, u, log ++ [.got i T c'.ptr_], hrun, ?_, ?_, ?_⟩
    · rw [World.emit_trace, leave_trace, TypeContainer.release_fst, hlog]
      simp
    · intro e he
      rcases List.mem_append.mp he with he | he
      · exact hquiet e he
      · rw [List.mem_singleton.mp he]
        rfl
    · intro a hp
      have hput := emplace_ptr_lookup_self (u.emit (.recipeEnd (w.trace.length + 1) p)) i T p
      have hnone := hfree a hp
      rw [World.emit_inj, hnone, Option.getD_none] at hput
      rw [TypeContainer.release_fst, hput] at hl
      cases hl
      rfl

theorem uses_of_default {u₁ : World} {c c' : TypeContainer} {b : Bool}
    (hn : (w.inj i).typeMap_.lookup T = none)
    (hmade : emplaceDefault ty i T (enter i T (w.emit (.asked .get i T))) = some (.ok c, u₁))
    (hl : (u₁.inj i).typeMap_.lookup T = some c') :
    Uses ty .get i T w ((leave i T .REFERENCE b u₁).emit (.got i T c'.ptr_)) c'.ptr_ none := by
  generalize hv : enter i T (w.emit (.asked .get i T)) = v at hmade
  have hnv : (v.inj i).typeMap_.lookup T = none := by
    rw [← hv, enter_typeMap]
    exact hn
  have hno : v.has_instance i T = false := no_instance_iff.mpr hnv
  have hput := TypeMap.emplace_of_not_has hno (some (.obj v.fresh))
  simp only [emplaceDefault, look, hno, Bool.false_eq_true, if_false] at hmade
  cases hctor : ty.ctor T v.trace.length with
  | some n =>
    rw [hctor] at hmade
    cases hmade
  | none =>
    rw [hctor] at hmade
    cases hmade
    refine ⟨.obj v.fresh, [.managed i T (.obj v.fresh), .got i T c'.ptr_], ?_, ?_, ?_⟩
    · have htr : v.trace = w.trace ++ [.asked .get i T] := by simp [← hv]
      simp [hput, htr]
    · simp [Event.isWork]
    · simp [hput] at hl
      rw [← hl]

/-- The first `get` of a type that returns has run the recipe once, or the default constructor. -/
theorem uses_of_get (fuel : ℕ) (hw : w.WF) (hi : i < w.count)
    (hn : (w.inj i).typeMap_.lookup T = none)
    (hup : ∀ q, (w.inj i).pUpstream_ = some q → w.has_instance q T = false) :
    wp (exec ty fuel ⟨.get, i, T⟩) (fun res w' => ∀ q, res = .ok q →
      Uses ty .get i T w w' q (w.find_recipe_ T (i + 1) i)) w := by
  cases fuel with
  | zero => intro r u h; cases h
  | succ fuel =>
    refine wp_get_made hn hup (wp_makeDependency ty _ (fun _ _ q hq => by cases hq) fun _ => ?_)
    refine wp_mono (inject_runs _ fuel hw hi) ?_
    intro res u₁ h
    cases res with
    | error e =>
      intro q hq
      cases hq
    | ok c =>
      refine wp_refOf (fun _ q hq => by cases hq) fun c' hl q hq => ?_
      cases hq
      rw [leave_typeMap] at hl
      cases hf : w.find_recipe_ T (i + 1) i with
      | some found =>
        obtain ⟨o, r⟩ := found
        simp only [hf] at h
        obtain ⟨p, u, hrun, hplace⟩ := recipeRun_ok h
        have ho : o ≤ i := (find_recipe_some hf).1.le hw hi
        refine uses_of_place hrun (fun a hp => ?_) hplace hl
        exact recipeRun_absent hw hi hn ho (hp ▸ hrun)
      | none =>
        simp only [hf] at h
        exact uses_of_default hn (h c rfl).2 hl

end

end Omulator.Di
