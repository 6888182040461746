import Omulator.Di.Inherited

/-!
# Which recipe a request runs

A request runs the recipe that was added last on the nearest injector that has one, once.
`creat` gives out an object that is nobody else's.
-/

namespace Omulator.Di
open Omulator.Lib Comp

/-! ### Which recipe is found -/

/-- `added` is what was added for a type: the search goes up from `i` to the first injector for
which something was, or past the root. -/
inductive Selected (w : World) (added : ℕ → Option Recipe) : ℕ → Option (ℕ × Recipe) → Prop
  | here {i : ℕ} {r : Recipe} : added i = some r → Selected w added i (some (i, r))
  | up {i q : ℕ} {found : Option (ℕ × Recipe)} : added i = none →
      (w.inj i).pUpstream_ = some q → Selected w added q found → Selected w added i found
  | top {i : ℕ} : added i = none → (w.inj i).pUpstream_ = none → Selected w added i none

theorem find_recipe_selected {w : World} {T : Hash_t} {added : ℕ → Option Recipe} (hw : w.WF)
    (hadded : ∀ j < w.count, (w.inj j).recipeMap_.lookup T = added j) :
    ∀ {n i : ℕ}, i < n → i < w.count → Selected w added i (w.find_recipe_ T n i) := by
  intro n
  induction n with
  | zero => intro i hn; omega
  | succ n ih =>
    intro i hn hi
    have ha := hadded i hi
    unfold World.find_recipe_
    cases hl : (w.inj i).recipeMap_.lookup T with
    | some r =>
      rw [hl] at ha
      exact .here ha.symm
    | none =>
      rw [hl] at ha
      cases hp : (w.inj i).pUpstream_ with
      | none => exact .top ha.symm hp
      | some q =>
        have hlt := hw i q hi hp
        exact .up ha.symm hp (ih (by omega) (by omega))

/-- The recipe for `T` that was added to `i` last. An injector is constructed with one for its
children. -/
def added (past : List (Op × Outcome)) (i : ℕ) (T : Hash_t) : Option Recipe :=
  past.foldl (fun last x =>
    match x.1 with
    | .addRecipe j U body => if j = i ∧ U = T then some (.fn body) else last
    | .bindImpl j U impl => if j = i ∧ U = T then some (.bind impl) else last
    | .call _ | .destroy _ => last) (if T = injectorHash then some .child else none)

structure History where
  world : World
  past : List (Op × Outcome)

def History.start : History := ⟨World.root, []⟩

def historyStep (ty : Types) (h : History) (op : Op) (h' : History) : Prop :=
  treeStep ty h.world op h'.world ∧ h'.past = h.past ++ [(op, (op.run ty h.world).1)]

def Allocated (w : World) : Addr → Prop
  | .injector k => k < w.count
  | .obj n => n < w.fresh

/-- What holds of a history: the recipes are those that were added, and what `creat` has given
has been allocated. -/
structure Recorded (ty : Types) (h : History) : Prop where
  inv : Inv ty h.world
  ops : ∀ x ∈ h.past, x.1.inj < h.world.count
  recipes : ∀ j T, j < h.world.count → (h.world.inj j).recipeMap_.lookup T = added h.past j T
  created : ∀ i T a, (.call ⟨.creat, i, T⟩, .ok (some a)) ∈ h.past → Allocated h.world a

/-! ### What `creat` gives -/

theorem runProg_fresh {rec : Call → M (Option Addr)} (i : ℕ) (p : Prog) (S : Finset ℕ)
    (hp : p.Fresh S) (w : World) :
    wp (runProg rec i p) (fun r _ => ∀ q, r = .ok q → ∃ n, q = some (.obj n)) w := by
  induction p generalizing S w with
  | new =>
    refine wp_look.mpr (wp_change.mpr ((wp_ret _).mpr ?_))
    intro q hq
    cases hq
    exact ⟨_, rfl⟩
  | ret p =>
    obtain ⟨n, _, rfl⟩ := hp
    refine (wp_ret _).mpr ?_
    intro q hq
    cases hq
    exact ⟨n, rfl⟩
  | throw e =>
    refine (wp_raise _).mpr ?_
    intro q hq
    cases hq
  | get U k ih =>
    rw [runProg, wp_attempt]
    intro r u _
    exact ih r S (hp r) u
  | creat U k ih =>
    rw [runProg, wp_attempt]
    intro r u _
    exact ih r _ (hp r) u

section
variable {ty : Types} {w w' : World} {i : ℕ} {T : Hash_t} {h h' : History}

/-- What a map refers to has been allocated, and is an injector or has an owner. -/
theorem Inv.entry_ne (hinv : Inv ty w) {j : ℕ} {U : Hash_t} {c : TypeContainer} {a : Addr}
    (hj : j < w.count) (hd : ¬ Dead w j) (hl : (w.inj j).typeMap_.lookup U = some c)
    (ha : (∃ n, a = .obj n ∧ ∀ k V, ¬ Manages w k V a) ∨ ∃ k, a = .injector k ∧ j < k) :
    c.ptr_ ≠ some a := by
  intro hp
  have hhome := hinv.home j U c a hj hd hl hp
  rcases ha with ⟨n, rfl, hfree⟩ | ⟨k, rfl, hk⟩
  · rcases hhome with ⟨k, he, _⟩ | ⟨k, V, _, hm⟩
    · cases he
    · exact hfree k V hm
  · rcases hhome with ⟨k', he, hanc⟩ | ⟨k', V, _, hm⟩
    · cases he
      have hle := hanc.le hinv.wf hj
      omega
    · obtain ⟨_, _, n, _, he⟩ := hinv.managed k' V _ hm
      cases he

theorem creat_new (hw : Live ty i w) {q : Option Addr}
    (hq : (w.call ty ⟨.creat, i, T⟩).1 = .ok q) : ∃ a, q = some a ∧ ¬ Allocated w a ∧
      Allocated (w.call ty ⟨.creat, i, T⟩).2 a ∧
      ∀ j U c, j < w.count → ¬ Dead (w.call ty ⟨.creat, i, T⟩).2 j →
        ((w.call ty ⟨.creat, i, T⟩).2.inj j).typeMap_.lookup U = some c → c.ptr_ ≠ some a := by
  have hwp := @call_of_wp ty ⟨.creat, i, T⟩ w _ hw.inv.wf hw.lt
    (fun fuel => wp_and (exec_kept fuel ⟨.creat, i, T⟩ w hw) (creat_runs fuel hw.inv.wf hw.lt))
  generalize (w.call ty ⟨.creat, i, T⟩).2 = w' at hwp ⊢
  obtain ⟨⟨hk, hgain⟩, hruns⟩ := hwp
  rw [hq] at hgain
  have hobj : ∀ n, q = some (.obj n) → ∃ a, q = some a ∧ ¬ Allocated w a ∧ Allocated w' a ∧
      ∀ j U c, j < w.count → ¬ Dead w' j → (w'.inj j).typeMap_.lookup U = some c →
        c.ptr_ ≠ some a := by
    rintro n rfl
    have hfl : Floating w' w.fresh n := hgain n rfl
    have hsince := hfl.since
    refine ⟨.obj n, rfl, by simp only [Allocated]; omega, hfl.lt, ?_⟩
    intro j U c hj hd hl
    exact hk.inv.entry_ne (Nat.lt_of_lt_of_le hj hk.ext.count) hd hl
      (Or.inl ⟨n, rfl, hfl.free⟩)
  have hrun := hruns q hq
  cases hf : w.find_recipe_ T (i + 1) i with
  | none =>
    simp only [hf] at hrun
    exact hobj _ hrun.1
  | some found =>
    obtain ⟨o, r⟩ := found
    simp only [hf] at hrun
    obtain ⟨a, u, rfl, hrec, hw'⟩ := hrun
    obtain ⟨hanc, hl, -⟩ := find_recipe_some hf
    have ho : o < w.count := Nat.lt_of_le_of_lt (hanc.le hw.inv.wf hw.lt) hw.lt
    cases r with
    | fn body =>
      obtain ⟨n, hn⟩ := runProg_fresh o _ ∅ (hw.inv.fresh o T body ho hl _) _ _ _ hrec _ rfl
      exact hobj n hn
    | bind impl =>
      have hnone := runRecipe_bind o T _ impl _ _ _ hrec _ rfl
      cases hnone
    | child =>
      cases hrec
      have hcount : w'.count = w.count + 1 := by simp [hw']
      refine ⟨.injector w.count, rfl, by simp [Allocated], by simp [Allocated, hcount], ?_⟩
      intro j U c hj hd hl
      exact hk.inv.entry_ne (Nat.lt_of_lt_of_le hj hk.ext.count) hd hl
        (Or.inr ⟨w.count, rfl, hj⟩)

/-! ### The record of a history -/

theorem added_snoc (past : List (Op × Outcome)) (x : Op × Outcome) (i : ℕ) (T : Hash_t) :
    added (past ++ [x]) i T = match x.1 with
      | .addRecipe j U body => if j = i ∧ U = T then some (.fn body) else added past i T
      | .bindImpl j U impl => if j = i ∧ U = T then some (.bind impl) else added past i T
      | .call _ | .destroy _ => added past i T := by
  simp only [added, List.foldl_append, List.foldl_cons, List.foldl_nil]

theorem added_newborn {past : List (Op × Outcome)} (hpast : ∀ x ∈ past, x.1.inj ≠ i) :
    added past i T = if T = injectorHash then some .child else none := by
  induction past using List.reverseRecOn with
  | nil => rfl
  | append_singleton past x ih =>
    have hx : x.1.inj ≠ i := hpast x (by simp)
    have hrest := ih fun y hy => hpast y (by simp [hy])
    rw [added_snoc]
    obtain ⟨op, res⟩ := x
    cases op with
    | call c => exact hrest
    | destroy j => exact hrest
    | addRecipe j U body =>
      have hj : ¬ (j = i ∧ U = T) := fun hc => hx hc.1
      simp only [hj, if_false]
      exact hrest
    | bindImpl j U impl =>
      have hj : ¬ (j = i ∧ U = T) := fun hc => hx hc.1
      simp only [hj, if_false]
      exact hrest

theorem construct_lookup (self : ℕ) (pUpstream : Option ℕ) (T : Hash_t) :
    (Injector.construct self pUpstream).recipeMap_.lookup T =
      if T = injectorHash then some .child else none := by
  by_cases hT : T = injectorHash
  · subst hT
    rfl
  · rw [if_neg hT]
    exact AList.lookup_insert_ne hT

theorem Allocated.mono {a : Addr} (ha : Allocated w a) (hc : w.count ≤ w'.count)
    (hf : w.fresh ≤ w'.fresh) : Allocated w' a := by
  cases a with
  | injector k => exact Nat.lt_of_lt_of_le ha hc
  | obj n => exact Nat.lt_of_lt_of_le ha hf

theorem insertRecipe_lookup (w : World) (k j : ℕ) (U T : Hash_t) (recipe : Recipe) :
    ((w.insertRecipe k U recipe).inj j).recipeMap_.lookup T =
      if k = j ∧ U = T then some recipe else (w.inj j).recipeMap_.lookup T := by
  rw [insertRecipe_inj]
  by_cases hj : j = k
  · subst hj
    by_cases hU : U = T
    · subst hU
      simp
    · simp [hU, AList.lookup_insert_ne (Ne.symm hU)]
  · simp [hj, Ne.symm hj]

theorem treeStep_grows {op : Op} (hinv : Inv ty w) (hs : treeStep ty w op w') :
    w.count ≤ w'.count ∧ w.fresh ≤ w'.fresh := by
  obtain ⟨hi, hd, _, rfl⟩ := hs
  cases op with
  | call c =>
    have hext : Ext c.inj w (w.call ty c).2 := call_ext hinv.wf hi
    exact ⟨hext.count, hext.fresh⟩
  | addRecipe j U body => exact ⟨(insertRecipe_count ..).ge, (insertRecipe_fresh ..).ge⟩
  | bindImpl j U impl => exact ⟨(insertRecipe_count ..).ge, (insertRecipe_fresh ..).ge⟩
  | destroy j =>
    have hf := destroyInjector_frees hinv hi hd
    exact ⟨hf.count.ge, hf.fresh.ge⟩

theorem treeStep_recipes {op : Op} (hinv : Inv ty w) (hs : treeStep ty w op w') {j : ℕ}
    (hj : j < w.count) (res : Outcome) (past : List (Op × Outcome))
    (hadd : (w.inj j).recipeMap_.lookup T = added past j T) :
    (w'.inj j).recipeMap_.lookup T = added (past ++ [(op, res)]) j T := by
  obtain ⟨hi, hd, _, rfl⟩ := hs
  rw [added_snoc]
  cases op with
  | call c =>
    have hext : Ext c.inj w (w.call ty c).2 := call_ext hinv.wf hi
    rw [← hadd]
    exact congrArg (AList.lookup T) (hext.recipes j hj)
  | addRecipe k U body =>
    rw [← hadd]
    exact insertRecipe_lookup w k j U T (.fn body)
  | bindImpl k U impl =>
    rw [← hadd]
    exact insertRecipe_lookup w k j U T (.bind impl)
  | destroy k =>
    have hf := destroyInjector_frees hinv hi hd
    rw [← hadd]
    exact congrArg (AList.lookup T) (hf.recipes j)

/-- An injector made in the course of a call has the recipe it was constructed with. -/
theorem newborn_recipes {c : Call} (hw : w.WF) (hi : c.inj < w.count) {j : ℕ} (hj : w.count ≤ j)
    (hj' : j < (w.call ty c).2.count) : ((w.call ty c).2.inj j).recipeMap_.lookup T =
      if T = injectorHash then some .child else none := by
  have hext : Ext c.inj w (w.call ty c).2 := call_ext hw hi
  obtain ⟨q, _, hq⟩ := hext.newborn j hj hj'
  rw [hq]
  exact construct_lookup j _ T

theorem start_recorded (ty : Types) : Recorded ty .start where
  inv := root_inv ty
  ops x hx := by cases hx
  recipes j T hj := construct_lookup 0 none T
  created i T a ha := by cases ha

theorem historyStep_recorded {op : Op} (hr : Recorded ty h) (hop : FreshRecipes h.world op)
    (hs : historyStep ty h op h') : Recorded ty h' := by
  obtain ⟨hstep, hpast⟩ := hs
  have hgrow := treeStep_grows hr.inv hstep
  refine ⟨treeStep_inv hr.inv hop hstep, ?_, ?_, ?_⟩
  · intro x hx
    rw [hpast, List.mem_append, List.mem_singleton] at hx
    rcases hx with hx | rfl
    · exact Nat.lt_of_lt_of_le (hr.ops x hx) hgrow.1
    · exact Nat.lt_of_lt_of_le hstep.1 hgrow.1
  · intro j T hj
    rw [hpast]
    by_cases hlt : j < h.world.count
    · exact treeStep_recipes hr.inv hstep hlt _ h.past (hr.recipes j T hlt)
    · have hnew : added (h.past ++ [(op, (op.run ty h.world).1)]) j T =
          if T = injectorHash then some .child else none := by
        refine added_newborn fun x hx => ?_
        rw [List.mem_append, List.mem_singleton] at hx
        rcases hx with hx | rfl
        · have hlt' := hr.ops x hx
          omega
        · have hlt' := hstep.1
          change op.inj ≠ j
          omega
      rw [hnew]
      obtain ⟨hi, hd, _, hw'⟩ := hstep
      cases op with
      | call c =>
        rw [← hw'] at hj ⊢
        exact newborn_recipes hr.inv.wf hi (by omega) hj
      | addRecipe k U body =>
        rw [← hw'] at hj
        exact absurd ((insertRecipe_count ..).symm ▸ hj) hlt
      | bindImpl k U impl =>
        rw [← hw'] at hj
        exact absurd ((insertRecipe_count ..).symm ▸ hj) hlt
      | destroy k =>
        rw [← hw'] at hj
        have hf := destroyInjector_frees hr.inv hi hd
        exact absurd (hf.count ▸ hj) hlt
  · intro i T a ha
    rw [hpast, List.mem_append, List.mem_singleton] at ha
    rcases ha with ha | ha
    · exact (hr.created i T a ha).mono hgrow.1 hgrow.2
    · obtain ⟨hi, hd, _, hw'⟩ := hstep
      obtain ⟨rfl, hres⟩ := Prod.mk.inj ha
      obtain ⟨b, hb, _, hall, _⟩ := creat_new ⟨hr.inv, hi, hd⟩ hres.symm
      cases hb
      rw [← hw']
      exact hall

theorem history_recorded
    (hrun : RunUnder (historyStep ty) (fun s op => FreshRecipes s.world op) .start h) :
    Recorded ty h :=
  hrun.invariant (Recorded ty) (start_recorded ty) fun _ _ _ ht hop hs =>
    historyStep_recorded ht hop hs

end

/-! ### Histories -/

/-- Of the request, which recipe it was: the one added last to the nearest injector. -/
def UsesLast (ty : Types) (h h' : History) (c : Call) (q : Option Addr) : Prop :=
  ∃ found, Selected h.world (fun j => added h.past j c.type) c.inj found ∧
    Uses ty c.kind c.inj c.type h.world h'.world q found

/-- The object was not there before: no type map refers to it, and no `creat` gave it. -/
def Distinct (h h' : History) (q : Option Addr) : Prop :=
  ∃ a, q = some a ∧ ¬ Allocated h.world a ∧
    (∀ j U c, j < h.world.count → ¬ Dead h'.world j →
      (h'.world.inj j).typeMap_.lookup U = some c → c.ptr_ ≠ some a) ∧
    ∀ j U b, (.call ⟨.creat, j, U⟩, .ok (some b)) ∈ h.past → b ≠ a

/-- A `creat` that returns has run the recipe that was added last to the nearest injector, once,
and gives an object distinct from all others; the first `get` chooses its recipe likewise. Where
no request in the course of the `creat` makes an entry for the type on another injector, it
leaves all entries and lists without one. -/
theorem creat_precedence {ty : Types} {h h' : History} {c : Call} {q : Option Addr}
    (hrun : RunUnder (historyStep ty) (fun s op => FreshRecipes s.world op) .start h)
    (hs : historyStep ty h (.call c) h') (hq : (h.world.call ty c).1 = .ok q) :
    (c.kind = .creat → UsesLast ty h h' c q ∧ Distinct h h' q ∧
      (Apart ty c.inj c.type h.world → Untouched c.type h.world h'.world)) ∧
    (c.kind = .get → (∀ j, Anc h.world j c.inj → h.world.has_instance j c.type = false) →
      UsesLast ty h h' c q) := by
  have hr := history_recorded hrun
  obtain ⟨⟨hi, hd, _, hw'⟩, _⟩ := hs
  change (h.world.call ty c).2 = h'.world at hw'
  have hw := hr.inv.wf
  have hsel := find_recipe_selected (T := c.type) hw (fun j hj => hr.recipes j c.type hj)
    (Nat.lt_succ_self c.inj) hi
  obtain ⟨kind, i, T⟩ := c
  constructor
  · intro hk
    change kind = .creat at hk
    subst hk
    refine ⟨⟨_, hsel, ?_⟩, ?_, ?_⟩
    · rw [← hw']
      exact @call_of_wp ty ⟨.creat, i, T⟩ _ _ hw hi (fun fuel => uses_of_creat fuel hw hi) q hq
    · obtain ⟨a, ha, hnew, _, hmaps⟩ := creat_new ⟨hr.inv, hi, hd⟩ hq
      refine ⟨a, ha, hnew, ?_, ?_⟩
      · rw [← hw']
        exact hmaps
      · rintro j U b hb rfl
        exact hnew (hr.created j U b hb)
    · intro hapart
      rw [← hw']
      exact apart_untouched hw hi hapart hq
  · intro hk hnone
    change kind = .get at hk
    subst hk
    refine ⟨_, hsel, ?_⟩
    rw [← hw']
    exact @call_of_wp ty ⟨.get, i, T⟩ _ _ hw hi
      (fun fuel => uses_of_get fuel hw hi (no_instance_iff.mp (hnone i (.self i)))
        fun p hp => hnone p (.up hp (.self p))) q hq

def History.after (ty : Types) (h : History) (op : Op) : History :=
  ⟨(op.run ty h.world).2, h.past ++ [(op, (op.run ty h.world).1)]⟩

/-- The child inherits the recipe of the type 1. -/
def inherited : History :=
  ((History.start.after plainTypes (.addRecipe 0 1 fun _ => .new)).after plainTypes
    (.call ⟨.creat, 0, injectorHash⟩))

theorem History.alive {h : History} {i : ℕ} (hno : .destroyed (.injector i) ∉ h.world.trace) :
    ¬ Dead h.world i := hno

theorem inherited_run : RunUnder (historyStep plainTypes) (fun s op => FreshRecipes s.world op)
    .start inherited := by
  refine (RunUnder.start.next (a := .addRecipe 0 1 fun _ => .new) (fun _ => trivial)
    ⟨⟨by decide, History.alive (by decide), by simp, rfl⟩, rfl⟩).next
    (a := .call ⟨.creat, 0, injectorHash⟩) trivial ⟨⟨by decide, ?_, by simp, rfl⟩, rfl⟩
  exact History.alive (by decide)

theorem inherited_creat :
    let h' := inherited.after plainTypes (.call ⟨.creat, 1, 1⟩)
    UsesLast plainTypes inherited h' ⟨.creat, 1, 1⟩ (some (.obj 0)) ∧
    Distinct inherited h' (some (.obj 0)) ∧ Untouched 1 inherited.world h'.world := by
  have hstep : historyStep plainTypes inherited (.call ⟨.creat, 1, 1⟩)
      (inherited.after plainTypes (.call ⟨.creat, 1, 1⟩)) :=
    ⟨⟨by decide, History.alive (by decide), by simp, rfl⟩, rfl⟩
  obtain ⟨huses, hdistinct, huntouched⟩ :=
    (creat_precedence inherited_run hstep (q := some (.obj 0)) (by decide)).1 rfl
  exact ⟨huses, hdistinct, huntouched ⟨3, by decide⟩⟩

/-- The child's recipe for the type 1 needs the type 2; the root's recipe for the type 2 asks the
root for a type 1 of its own. -/
def entangled : History :=
  (((History.start.after plainTypes (.addRecipe 0 2 fun _ => .get 1 fun _ => .new)).after
    plainTypes (.call ⟨.creat, 0, injectorHash⟩)).after
    plainTypes (.addRecipe 1 1 fun _ => .get 2 fun _ => .new))

theorem entangled_run : RunUnder (historyStep plainTypes) (fun s op => FreshRecipes s.world op)
    .start entangled := by
  refine ((RunUnder.start.next (a := .addRecipe 0 2 fun _ => .get 1 fun _ => .new)
    (fun _ _ => trivial) ⟨⟨by decide, History.alive (by decide), by simp, rfl⟩, rfl⟩).next
    (a := .call ⟨.creat, 0, injectorHash⟩) trivial ⟨⟨by decide, ?_, by simp, rfl⟩, rfl⟩).next
    (a := .addRecipe 1 1 fun _ => .get 2 fun _ => .new) (fun _ _ => trivial)
    ⟨⟨by decide, ?_, by simp, rfl⟩, rfl⟩
  · exact History.alive (by decide)
  · exact History.alive (by decide)

/-- `creat` on the child leaves the root with an instance of the type. -/
theorem entangled_fills :
    let w' := (entangled.world.call plainTypes ⟨.creat, 1, 1⟩).2
    (entangled.world.call plainTypes ⟨.creat, 1, 1⟩).1 = .ok (some (.obj 2)) ∧
    entangled.world.has_instance 0 1 = false ∧ w'.has_instance 0 1 = true ∧
    (w'.inj 0).invocationList_ = [1] ∧
    ¬ ∀ (ty : Types) (h h' : History) (i : ℕ) (T : Hash_t) (q : Option Addr),
      RunUnder (historyStep ty) (fun s op => FreshRecipes s.world op) .start h →
      historyStep ty h (.call ⟨.creat, i, T⟩) h' →
      (h.world.call ty ⟨.creat, i, T⟩).1 = .ok q → Untouched T h.world h'.world := by
  have hret : (entangled.world.call plainTypes ⟨.creat, 1, 1⟩).1 = .ok (some (.obj 2)) := by decide
  have hbefore : entangled.world.has_instance 0 1 = false := by decide
  have hafter : (entangled.world.call plainTypes ⟨.creat, 1, 1⟩).2.has_instance 0 1 = true := by
    decide
  refine ⟨hret, hbefore, hafter, by decide, fun h => ?_⟩
  have hstep : historyStep plainTypes entangled (.call ⟨.creat, 1, 1⟩)
      (entangled.after plainTypes (.call ⟨.creat, 1, 1⟩)) :=
    ⟨⟨by decide, History.alive (by decide), by simp, rfl⟩, rfl⟩
  have hsame := (h plainTypes entangled _ 1 1 _ entangled_run hstep hret 0 (by decide)).1
  have hnone := no_instance_iff.mp hbefore
  rw [hnone] at hsame
  have hno := no_instance_iff.mpr hsame
  have hyes : (entangled.after plainTypes (.call ⟨.creat, 1, 1⟩)).world.has_instance 0 1 = true :=
    hafter
  rw [hno] at hyes
  cases hyes

end Omulator.Di
