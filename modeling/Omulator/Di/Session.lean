import Omulator.Di.Termination
import Omulator.Lib.Transition

/-!
# Sessions

What a program does with its injectors from the outside: it adds recipes, binds
interfaces, asks for instances and destroys injectors, one operation after the other.
-/

namespace Omulator.Di
open Omulator.Lib

inductive Op where
  | call (c : Call)
  | addRecipe (i : ℕ) (T : Hash_t) (body : ℕ → Prog)
  | bindImpl (i : ℕ) (Interface Implementation : Hash_t)
  | destroy (i : ℕ)

namespace Op

def inj : Op → ℕ
  | .call c => c.inj
  | .addRecipe i _ _ | .bindImpl i _ _ | .destroy i => i

def run (ty : Types) : Op → World → Outcome × World
  | .call c, w => w.call ty c
  | .addRecipe i T body, w => (.ok none, w.addRecipe i T body)
  | .bindImpl i Interface Implementation, w => (.ok none, w.bindImpl i Interface Implementation)
  | .destroy i, w => (.ok none, w.destroyInjector i)

/-- The operations of a program that only uses its root injector. -/
def OnRoot : Op → Prop
  | .destroy _ => False
  | op => op.inj = 0

end Op

/-- One operation on the root injector, labelled with what it gives back. -/
def rootStep (ty : Types) (w : World) (a : Op × Outcome) (w' : World) : Prop :=
  a.1.OnRoot ∧ a.1.run ty w = (a.2, w')

def plainTypes : Types := ⟨fun _ => false, fun _ => true, fun _ _ => none, rfl⟩

/-- The same, but the type 1 is an interface. -/
def interfaceTypes : Types := ⟨fun T => T == 1, fun _ => true, fun _ _ => none, rfl⟩

/-! ### Injectors stay older than their children -/

theorem root_wf : World.root.WF := by
  intro i p _ hp
  cases hp

theorem call_wf {ty : Types} {c : Call} {w : World} (hw : w.WF) (hi : c.inj < w.count) :
    (w.call ty c).2.WF := (call_ext hw hi).wf hi hw

theorem upd_wf {w : World} (hw : w.WF) (i : ℕ) (f : Injector → Injector)
    (hf : (f (w.inj i)).pUpstream_ = (w.inj i).pUpstream_) : (w.upd i f).WF := by
  intro j p hj hp
  refine hw j p hj ?_
  by_cases hji : j = i
  · subst hji
    rw [World.upd_inj_self, hf] at hp
    exact hp
  · rwa [World.upd_inj_ne _ _ _ _ hji] at hp

theorem insertRecipe_wf {w : World} (hw : w.WF) (i : ℕ) (T : Hash_t) (recipe : Recipe) :
    (w.insertRecipe i T recipe).WF := by
  unfold World.insertRecipe
  dsimp only
  split
  · have hw' : (w.emit (.overriding T)).WF := hw
    exact upd_wf hw' i (fun x => { x with recipeMap_ := x.recipeMap_.insert T recipe }) rfl
  · exact upd_wf hw i (fun x => { x with recipeMap_ := x.recipeMap_.insert T recipe }) rfl

@[simp] theorem insertRecipe_count (w : World) (i : ℕ) (T : Hash_t) (recipe : Recipe) :
    (w.insertRecipe i T recipe).count = w.count := by
  unfold World.insertRecipe
  dsimp only
  split <;> rfl

theorem insertRecipe_fresh (w : World) (i : ℕ) (T : Hash_t) (recipe : Recipe) :
    (w.insertRecipe i T recipe).fresh = w.fresh := by
  unfold World.insertRecipe
  dsimp only
  split <;> rfl

theorem insertRecipe_inj (w : World) (i j : ℕ) (T : Hash_t) (recipe : Recipe) :
    (w.insertRecipe i T recipe).inj j = if j = i then
      { w.inj i with recipeMap_ := (w.inj i).recipeMap_.insert T recipe } else w.inj j := by
  unfold World.insertRecipe
  dsimp only
  by_cases hj : j = i
  · subst hj
    split <;> simp
  · split <;> simp [hj]

end Omulator.Di
