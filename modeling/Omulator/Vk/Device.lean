import Omulator.Lib.Script
import Omulator.Vk.Pipeline
import Mathlib.Data.List.Nodup
import Mathlib.Logic.Function.Basic

/-!
# The device and the window

What the calls of the renderer do to Vulkan's objects and what they answer. Of a call the
renderer makes after a successful one without looking at its result only the effect is modelled:
such a call returns. Between two calls the GPU may complete submissions, in any order, the
presentation engine may signal semaphores and the window may change.
-/

namespace Omulator.Vk

open Lib

inductive Object where
  | pipeline | pipelineLayout
  | framebuffers | imageViews | swapchain | depthImage | depthImageView
  | shaderModule (stage : ShaderStage)
  deriving DecidableEq, Repr

/-- The calls of `VulkanBackend`, `Frame`, `Swapchain` and `Pipeline`; a frame's command buffer,
fence and semaphores go by the frame's index. -/
inductive Op where
  /-- `IWindow::dimensions` -/
  | dimensions
  | waitIdle
  | waitForFences (frame : ℕ)
  | resetFences (frame : ℕ)
  | resetCommandBuffer (frame : ℕ)
  | acquireNextImageKHR (frame : ℕ)
  /-- what is recorded will be for this image -/
  | beginCommandBuffer (frame : ℕ) (imageIdx : UInt32)
  /-- the render pass with this image's framebuffer, up to the end of the command buffer -/
  | recordRenderPass (frame : ℕ) (imageIdx : UInt32)
  | submit (frame : ℕ)
  | queuePresentKHR (frame : ℕ) (imageIdx : UInt32)
  | destroy (o : Object)
  /-- `vkb::SwapchainBuilder::build` -/
  | buildSwapchain (width height : UInt32)
  /-- `SwapchainKHR::getImages`, as far as how many they are -/
  | getImages
  /-- constructs a `Shader` from a file -/
  | loadShader (shader : String)
  deriving DecidableEq, Repr

namespace Op

abbrev Ans : Op → Type
  | dimensions => UInt32 × UInt32
  | waitForFences _ => Result
  -- the image index is what the variable holds after the call
  | acquireNextImageKHR _ => Result × UInt32
  | queuePresentKHR _ _ => Result
  -- the reason of a failure, or the number of images of the new swapchain
  | buildSwapchain _ _ => Except String ℕ
  | getImages => ℕ
  | loadShader _ => Except Exn Shader
  | waitIdle | resetFences _ | resetCommandBuffer _ | beginCommandBuffer _ _
  | recordRenderPass _ _ | submit _ | destroy _ => Unit

end Op

inductive Semaphore where
  | unsignaled
  /-- a signal operation has been issued -/
  | pending
  | signaled
  deriving DecidableEq, Repr

structure Acquired where
  frame : ℕ
  result : Result
  imageIdx : UInt32
  deriving DecidableEq, Repr

structure World where
  window : UInt32 × UInt32
  /-- signaled -/
  fence : ℕ → Bool
  /-- the frames whose submissions have not completed, one entry for each submission -/
  pending : List ℕ
  presentSemaphore : ℕ → Semaphore
  renderSemaphore : ℕ → Semaphore
  /-- the image that the frame's command buffer renders to -/
  cmdBuff : ℕ → Option UInt32
  /-- how many the swapchain has -/
  images : ℕ
  /-- those since the renderer's method was entered -/
  acquired : List Acquired

/-- The acquire signals its semaphore and yields an image. -/
def Result.yields : Result → Bool
  | .eSuccess | .eSuboptimalKHR => true
  | _ => false

namespace World

open Function

/-- The world after a call with this answer, if the call can be answered so. `waitIdle` returns
when nothing is pending, and a fence that is waited for with success is signaled. -/
def answer : (op : Op) → op.Ans → World → Option World
  | .dimensions, (d : UInt32 × UInt32), w => if d = w.window then some w else none
  | .waitIdle, (), w => if w.pending = [] then some w else none
  | .waitForFences i, (r : Result), w => if r = .eSuccess ∧ w.fence i = false then none else some w
  | .resetFences i, (), w => some { w with fence := update w.fence i false }
  | .resetCommandBuffer i, (), w | .beginCommandBuffer i _, (), w =>
    some { w with cmdBuff := update w.cmdBuff i none }
  | .acquireNextImageKHR i, (r, imageIdx), w =>
    let w := { w with acquired := ⟨i, r, imageIdx⟩ :: w.acquired }
    if r.yields then
      if imageIdx.toNat < w.images then
        some { w with presentSemaphore := update w.presentSemaphore i .pending }
      else none
    else some w
  | .recordRenderPass i imageIdx, (), w =>
    some { w with cmdBuff := update w.cmdBuff i (some imageIdx) }
  | .submit i, (), w =>
    some { w with
      pending := w.pending ++ [i]
      presentSemaphore := update w.presentSemaphore i .unsignaled
      renderSemaphore := update w.renderSemaphore i .pending }
  | .queuePresentKHR i _, (_ : Result), w =>
    some { w with renderSemaphore := update w.renderSemaphore i .unsignaled }
  | .destroy .swapchain, (), w => some { w with images := 0 }
  | .destroy _, (), w => some w
  | .buildSwapchain _ _, .ok n, w => some { w with images := n }
  | .buildSwapchain _ _, .error _, w => some w
  | .getImages, (n : ℕ), w => if n = w.images then some w else none
  | .loadShader _, _, w => some w

inductive Change where
  /-- a submission of the frame completes and signals its fence -/
  | completed (frame : ℕ)
  /-- the image of the frame's last acquire is available -/
  | available (frame : ℕ)
  | resized (dims : UInt32 × UInt32)
  deriving DecidableEq, Repr

def drift : Change → World → Option World
  | .completed i, w =>
    if i ∈ w.pending then
      some { w with
        pending := w.pending.erase i
        fence := update w.fence i true
        renderSemaphore :=
          if w.renderSemaphore i = .pending then update w.renderSemaphore i .signaled
          else w.renderSemaphore }
    else none
  | .available i, w =>
    if w.presentSemaphore i = .pending then
      some { w with presentSemaphore := update w.presentSemaphore i .signaled }
    else none
  | .resized dims, w => some { w with window := dims }

def service : Service Op Op.Ans Change World := ⟨answer, drift⟩

/-- What an acquire does: it yields an image of the swapchain and signals the semaphore, or it
does nothing. -/
theorem acquire_cases {i : ℕ} {r : Result} {imageIdx : UInt32} {w w' : World}
    (h : service.answer (.acquireNextImageKHR i) (r, imageIdx) w = some w') :
    r.yields = true ∧ imageIdx.toNat < w.images ∧
        w' = { w with
          acquired := ⟨i, r, imageIdx⟩ :: w.acquired
          presentSemaphore := update w.presentSemaphore i .pending } ∨
      r.yields = false ∧ w' = { w with acquired := ⟨i, r, imageIdx⟩ :: w.acquired } := by
  simp only [service, answer] at h
  split at h
  · rename_i hy
    obtain ⟨hi, hw⟩ := Option.ite_none_right_eq_some.mp h
    exact Or.inl ⟨hy, hi, (Option.some.inj hw).symm⟩
  · rename_i hy
    exact Or.inr ⟨by simpa using hy, (Option.some.inj h).symm⟩

theorem answer_window {op : Op} {x : op.Ans} {w w' : World} (h : answer op x w = some w') :
    w'.window = w.window := by
  cases op with
  | acquireNextImageKHR i =>
    obtain ⟨_, _, rfl⟩ | ⟨_, rfl⟩ := acquire_cases h
    · rfl
    · rfl
  | buildSwapchain width height =>
    cases x with
    | ok n =>
      cases h
      rfl
    | error reason =>
      cases h
      rfl
  | destroy o =>
    cases o with
    | swapchain =>
      cases h
      rfl
    | _ =>
      cases h
      rfl
  | dimensions | waitIdle | getImages =>
    obtain ⟨_, hw⟩ := Option.ite_none_right_eq_some.mp h
    cases hw
    rfl
  | waitForFences i =>
    obtain ⟨_, hw⟩ := Option.ite_none_left_eq_some.mp h
    cases hw
    rfl
  | _ =>
    cases h
    rfl

/-! ### What survives the changes -/

structure Drifted (w w' : World) : Prop where
  images : w'.images = w.images
  acquired : w'.acquired = w.acquired
  cmdBuff : w'.cmdBuff = w.cmdBuff
  work : w'.pending = w.pending ∧ w'.fence = w.fence ∨
    ∃ i ∈ w.pending, w'.pending = w.pending.erase i ∧ w'.fence = update w.fence i true
  present : ∀ i, w.presentSemaphore i = .unsignaled → w'.presentSemaphore i = .unsignaled

theorem drifted {d : Change} {w w' : World} (h : drift d w = some w') : Drifted w w' := by
  cases d with
  | completed i =>
    simp only [drift, Option.ite_none_right_eq_some, Option.some.injEq] at h
    obtain ⟨hi, rfl⟩ := h
    exact ⟨rfl, rfl, rfl, Or.inr ⟨i, hi, rfl, rfl⟩, fun _ hj => hj⟩
  | available i =>
    simp only [drift, Option.ite_none_right_eq_some, Option.some.injEq] at h
    obtain ⟨hi, rfl⟩ := h
    refine ⟨rfl, rfl, rfl, Or.inl ⟨rfl, rfl⟩, fun j hj => ?_⟩
    have hne : j ≠ i := fun he => by simp [he ▸ hj] at hi
    simp only [update_of_ne hne, hj]
  | resized dims =>
    cases h
    exact ⟨rfl, rfl, rfl, Or.inl ⟨rfl, rfl⟩, fun _ hj => hj⟩

theorem Drifted.pending_sub {w w' : World} (h : Drifted w w') {i : ℕ} (hi : i ∈ w'.pending) :
    i ∈ w.pending := by
  rcases h.work with ⟨hp, _⟩ | ⟨j, _, hp, _⟩
  · rwa [hp] at hi
  · rw [hp] at hi
    exact List.mem_of_mem_erase hi

theorem stable_images (n : ℕ) : service.Stable fun w => w.images = n :=
  fun _ _ _ h hd => (drifted hd).images.trans h

theorem stable_acquired (a : Acquired) : service.Stable fun w => a ∈ w.acquired :=
  fun _ _ _ h hd => Eq.mpr (congrArg (a ∈ ·) (drifted hd).acquired) h

theorem stable_cmdBuff (i : ℕ) (c : Option UInt32) : service.Stable fun w => w.cmdBuff i = c :=
  fun _ _ _ h hd => (congrFun (drifted hd).cmdBuff i).trans h

theorem stable_idle (i : ℕ) : service.Stable fun w => i ∉ w.pending :=
  fun _ _ _ h hd hi => h ((drifted hd).pending_sub hi)

theorem stable_allIdle : service.Stable fun w => w.pending = [] := by
  intro w d w' h hd
  refine List.eq_nil_iff_forall_not_mem.mpr fun i hi => ?_
  have hm := (drifted hd).pending_sub hi
  rw [h] at hm
  cases hm

end World
end Omulator.Vk
