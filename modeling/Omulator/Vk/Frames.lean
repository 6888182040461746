import Omulator.Vk.Backend

/-!
# The frames in flight

What a frame uses is reused when its last submission has completed: an invariant of all that the
backend's methods do, whatever Vulkan answers and in whatever order the GPU completes its work.
-/

namespace Omulator.Vk

open Lib Routine Function

/-! ### What the calls should respect -/

/-- What is reused or destroyed is not in use, and what is waited for can come. -/
def Idle : Op → World → Prop
  | .resetCommandBuffer i, w | .beginCommandBuffer i _, w | .recordRenderPass i _, w
  | .resetFences i, w => i ∉ w.pending
  | .destroy (.shaderModule _), _ => True
  | .destroy _, w => w.pending = []
  | .waitForFences i, w => w.fence i = true ∨ i ∈ w.pending
  | .dimensions, _ | .waitIdle, _ | .acquireNextImageKHR _, _ | .submit _, _
  | .queuePresentKHR _ _, _ | .buildSwapchain _ _, _ | .getImages, _ | .loadShader _, _ => True

/-- An acquire for the frame has yielded this image since the method was entered. -/
def World.Yielded (w : World) (frame : ℕ) (imageIdx : UInt32) : Prop :=
  ∃ r, r.yields = true ∧ ⟨frame, r, imageIdx⟩ ∈ w.acquired

/-- An acquire signals a semaphore that no signal is left on, and an image is used that was
acquired for it. -/
def InOrder : Op → World → Prop
  | .acquireNextImageKHR i, w => w.presentSemaphore i = .unsignaled
  | .beginCommandBuffer i imageIdx, w | .recordRenderPass i imageIdx, w
  | .queuePresentKHR i imageIdx, w => w.Yielded i imageIdx
  | .submit i, w => ∃ imageIdx, w.cmdBuff i = some imageIdx ∧ w.Yielded i imageIdx
  | .resetCommandBuffer _, _ | .resetFences _, _ | .destroy _, _ | .waitForFences _, _
  | .dimensions, _ | .waitIdle, _ | .buildSwapchain _ _, _ | .getImages, _ | .loadShader _, _ =>
    True

/-- Every acquire gives one of the results of `K`. -/
def AcquiresIn (K : Result → Prop) : (op : Op) → op.Ans → Prop
  | .acquireNextImageKHR _, (r, _) => K r
  | .dimensions, _ | .waitIdle, _ | .waitForFences _, _ | .resetFences _, _
  | .resetCommandBuffer _, _ | .beginCommandBuffer _ _, _ | .recordRenderPass _ _, _
  | .submit _, _ | .queuePresentKHR _ _, _ | .destroy _, _ | .buildSwapchain _ _, _
  | .getImages, _ | .loadShader _, _ => True

/-! ### The invariant -/

/-- `busy` is the frame whose fence has been reset for a submission to come, and `charged` the one
whose semaphore has been given a signal for it. `sub` says that acquires may be suboptimal, which
leaves a signal on the semaphore. -/
structure Base (sub : Prop) (busy charged : Option ℕ) (w : World) : Prop where
  fences : ∀ j, busy ≠ some j → (w.fence j = true ↔ j ∉ w.pending)
  nodup : w.pending.Nodup
  reset : ∀ j, busy = some j → w.fence j = false ∧ j ∉ w.pending
  unsignaled : ¬ sub → ∀ j, charged ≠ some j → w.presentSemaphore j = .unsignaled

variable {sub : Prop} {busy charged : Option ℕ} {w : World}

theorem Base.congr {w' : World} (h : Base sub busy charged w) (hf : w'.fence = w.fence)
    (hp : w'.pending = w.pending) (hs : w'.presentSemaphore = w.presentSemaphore) :
    Base sub busy charged w' where
  fences j hj := by
    rw [hf, hp]
    exact h.fences j hj
  nodup := hp ▸ h.nodup
  reset j hj := by
    rw [hf, hp]
    exact h.reset j hj
  unsignaled hn j hj := by
    rw [hs]
    exact h.unsignaled hn j hj

theorem stable_base (sub : Prop) (busy charged : Option ℕ) :
    World.service.Stable (Base sub busy charged) := by
  intro w d w' h hd
  have hdr := World.drifted hd
  have hsem : ¬ sub → ∀ j, charged ≠ some j → w'.presentSemaphore j = .unsignaled :=
    fun hs j hj => hdr.present j (h.unsignaled hs j hj)
  rcases hdr.work with ⟨hp, hf⟩ | ⟨i, hi, hp, hf⟩
  · refine ⟨?_, ?_, ?_, hsem⟩
    · rw [hp, hf]
      exact h.fences
    · rw [hp]
      exact h.nodup
    · rw [hp, hf]
      exact h.reset
  · refine ⟨fun j hj => ?_, ?_, fun j hj => ?_, hsem⟩
    · rw [hp, hf]
      by_cases hji : j = i
      · subst hji
        simp [h.nodup.not_mem_erase]
      · rw [update_of_ne hji, List.mem_erase_of_ne hji]
        exact h.fences j hj
    · rw [hp]
      exact h.nodup.erase i
    · obtain ⟨hfj, hij⟩ := h.reset j hj
      have hji : j ≠ i := fun he => hij (he ▸ hi)
      rw [hp, hf, update_of_ne hji, List.mem_erase_of_ne hji]
      exact ⟨hfj, hij⟩

structure Quiet (sub : Prop) (n : ℕ) (w : World) : Prop where
  base : Base sub none none w
  allIdle : w.pending = []
  images : w.images = n

theorem stable_quiet (sub : Prop) (n : ℕ) : World.service.Stable (Quiet sub n) :=
  fun w d w' h hd => ⟨stable_base sub none none w d w' h.base hd,
    World.stable_allIdle w d w' h.allIdle hd, World.stable_images n w d w' h.images hd⟩

def Required (sub : Prop) (op : Op) (w : World) : Prop := Idle op w ∧ (¬ sub → InOrder op w)

variable {K : Result → Prop} {α : Type} {V : Driver}

/-- Every call that `m` makes respects what is required. -/
abbrev Served (K : Result → Prop) (m : M α) (Q : Except Exn α → VulkanBackend → World → Prop)
    (b : VulkanBackend) (w : World) : Prop :=
  wp World.service (Required (K .eSuboptimalKHR)) (AcquiresIn K) m Q b w

/-! ### The swapchain and the pipeline -/

section
variable {n : ℕ} {b : VulkanBackend}

theorem destroy_served {o : Object} {Q : Except Exn Unit → VulkanBackend → World → Prop}
    (h : Quiet (K .eSuboptimalKHR) n w)
    (hk : ∀ w', Quiet (K .eSuboptimalKHR) (if o = .swapchain then 0 else n) w' → Q (.ok ()) b w') :
    Served K (destroy o) Q b w := by
  refine wp_ask_of (stable_quiet _ n) h ?_ ?_
  · intro w' hw
    refine ⟨?_, fun _ => trivial⟩
    cases o with
    | shaderModule stage => trivial
    | _ => exact hw.allIdle
  · intro x w' w'' hw _ hx
    cases o with
    | swapchain =>
      cases hx
      exact hk _ ⟨hw.base.congr rfl rfl rfl, hw.allIdle, rfl⟩
    | _ =>
      cases hx
      exact hk _ hw

theorem clear_served (h : Quiet (K .eSuboptimalKHR) n w) :
    Served K Swapchain.clear_ (fun r b' w' => r = .ok () ∧
      b' = { b with swapchain_ := { b.swapchain_ with framebuffers_ := 0, imageViews_ := 0 } } ∧
      Quiet (K .eSuboptimalKHR) 0 w') b w := by
  refine wp_bind.mpr (destroy_served h fun w₁ h₁ => ?_)
  refine wp_modify_bind.mpr (wp_bind.mpr (destroy_served h₁ fun w₂ h₂ => ?_))
  refine wp_modify_bind.mpr (destroy_served h₂ fun w₃ h₃ => ?_)
  exact ⟨rfl, rfl, h₃⟩

theorem build_swapchain_served (h : Quiet (K .eSuboptimalKHR) 0 w) :
    Served K (Swapchain.build_swapchain_ V) (fun r b' w' =>
      ∃ dims : UInt32 × UInt32, b' = { b with swapchain_ :=
        { b.swapchain_ with surfaceWidth := dims.1, surfaceHeight := dims.2 } } ∧
      (r = .ok () ∧ (∃ n, Quiet (K .eSuboptimalKHR) n w') ∨
        ∃ e, r = .error e ∧ Quiet (K .eSuboptimalKHR) 0 w')) b w := by
  refine wp_ask_bind (stable_quiet _ 0) h (fun _ _ => ⟨trivial, fun _ => trivial⟩) ?_
  intro dims w₁ w₂ h₁ _ hx
  obtain ⟨_, hw⟩ := Option.ite_none_right_eq_some.mp hx
  cases hw
  refine wp_modify_bind.mpr ?_
  refine wp_ask_bind (stable_quiet _ 0) h₁ (fun _ _ => ⟨trivial, fun _ => trivial⟩) ?_
  intro built w₂ w₃ h₂ _ hx
  cases built with
  | ok m =>
    cases hx
    exact ⟨dims, rfl,
      Or.inl ⟨rfl, m, h₂.base.congr rfl rfl rfl, h₂.allIdle, rfl⟩⟩
  | error reason =>
    cases hx
    exact ⟨dims, rfl, Or.inr ⟨_, rfl, h₂⟩⟩

theorem build_image_views_served (h : Quiet (K .eSuboptimalKHR) n w) :
    Served K Swapchain.build_image_views_ (fun r b' w' => r = .ok () ∧
      b' = { b with swapchain_ :=
        { b.swapchain_ with imageViews_ := b.swapchain_.imageViews_ + n } } ∧
      Quiet (K .eSuboptimalKHR) n w') b w := by
  refine wp_ask_bind (stable_quiet _ n) h (fun _ _ => ⟨trivial, fun _ => trivial⟩) ?_
  intro images w₁ w₂ h₁ _ hx
  obtain ⟨hi, hw⟩ := Option.ite_none_right_eq_some.mp hx
  cases hw
  rw [h₁.images] at hi
  subst hi
  exact ⟨rfl, rfl, h₁⟩

theorem build_depth_image_views_served (h : Quiet (K .eSuboptimalKHR) n w) :
    Served K Swapchain.build_depth_image_views_ (fun r b' w' => r = .ok () ∧
      b' = { b with swapchain_ := { b.swapchain_ with depthImage_ := true } } ∧
      Quiet (K .eSuboptimalKHR) n w') b w := by
  have rest : ∀ w₁, Quiet (K .eSuboptimalKHR) n w₁ →
      Served K (Swapchain.update (fun s => { s with depthImage_ := true }) >>= fun _ =>
        destroy .depthImageView) (fun r b' w' => r = .ok () ∧
      b' = { b with swapchain_ := { b.swapchain_ with depthImage_ := true } } ∧
      Quiet (K .eSuboptimalKHR) n w') b w₁ := fun w₁ h₁ =>
    wp_modify_bind.mpr (destroy_served h₁ fun w₂ h₂ => ⟨rfl, rfl, h₂⟩)
  refine wp_get_bind.mpr ?_
  cases hd : b.swapchain_.depthImage_ with
  | true => exact wp_bind.mpr (destroy_served h fun w₁ h₁ => rest w₁ h₁)
  | false => exact rest w h

/-- After a reset the framebuffers are as many as the images, also when building the swapchain
has failed: then there are none. -/
theorem reset_served (h : Quiet (K .eSuboptimalKHR) n w) :
    Served K (Swapchain.reset V) (fun _ b' w' => b' = { b with swapchain_ := b'.swapchain_ } ∧
      Quiet (K .eSuboptimalKHR) b'.swapchain_.framebuffers_ w') b w := by
  refine wp_bind.mpr (wp_mono (clear_served h) ?_)
  rintro r₁ b₁ w₁ ⟨rfl, rfl, h₁⟩
  refine wp_bind.mpr (wp_mono (build_swapchain_served h₁) ?_)
  rintro r₂ b₂ w₂ ⟨dims, rfl, ⟨rfl, m, h₂⟩ | ⟨e, rfl, h₂⟩⟩
  · refine wp_bind.mpr (wp_mono (build_image_views_served h₂) ?_)
    rintro r₃ b₃ w₃ ⟨rfl, rfl, h₃⟩
    refine wp_bind.mpr (wp_mono (build_depth_image_views_served h₃) ?_)
    rintro r₄ b₄ w₄ ⟨rfl, rfl, h₄⟩
    exact ⟨rfl, by simpa using h₄⟩
  · exact ⟨rfl, h₂⟩

theorem check_served {r : Except Exn Unit} {Q : Except Exn Unit → VulkanBackend → World → Prop}
    (h : ∀ r, Q r b w) : Served K (check r) Q b w := by
  cases r with
  | ok u => exact h _
  | error e => exact h _

theorem method_served {f : Pipeline → Except Exn Unit × Pipeline}
    {Q : Except Exn Unit → VulkanBackend → World → Prop}
    (h : ∀ r, Q r { b with pipeline_ := (f b.pipeline_).2 } w) :
    Served K (Pipeline.method f) Q b w :=
  wp_get_bind.mpr (wp_bind.mpr (check_served h))

theorem rebuild_served (h : Quiet (K .eSuboptimalKHR) n w) :
    Served K (Pipeline.rebuild V) (fun _ b' w' => b' = { b with pipeline_ := b'.pipeline_ } ∧
      Quiet (K .eSuboptimalKHR) n w') b w := by
  refine wp_bind.mpr (destroy_served h fun w₁ h₁ => wp_bind.mpr (destroy_served h₁ fun w₂ h₂ => ?_))
  exact method_served fun r => ⟨rfl, h₂⟩

end

/-! ### The frames -/

structure Inv (sub : Prop) (b : VulkanBackend) (w : World) : Prop where
  base : Base sub none none w
  framebuffers : b.swapchain_.framebuffers_ = w.images

theorem stable_inv (sub : Prop) (b : VulkanBackend) : World.service.Stable (Inv sub b) :=
  fun w d w' h hd => ⟨stable_base sub none none w d w' h.base hd,
    h.framebuffers.trans (World.drifted hd).images.symm⟩

section
variable {b : VulkanBackend} {i : ℕ}

theorem wait_served (h : Inv (K .eSuboptimalKHR) b w) :
    Served K (Frame.wait i) (fun r b' w' => b' = b ∧ Inv (K .eSuboptimalKHR) b w' ∧
      (r = .ok true → i ∉ w'.pending)) b w := by
  refine wp_ask_bind (stable_inv _ b) h ?_ ?_
  · intro w' hw
    refine ⟨?_, fun _ => trivial⟩
    by_cases hi : i ∈ w'.pending
    · exact Or.inr hi
    · exact Or.inl ((hw.base.fences i (by simp)).mpr hi)
  · intro r w₁ w₂ h₁ _ hx
    obtain ⟨hr, hw⟩ := Option.ite_none_left_eq_some.mp hx
    cases hw
    by_cases hs : r = Result.eSuccess
    · subst hs
      have hf : w₁.fence i = true := by simpa using hr
      exact ⟨rfl, h₁, fun _ => (h₁.base.fences i (by simp)).mp hf⟩
    · by_cases ht : r = Result.eTimeout
      · subst ht
        exact ⟨rfl, h₁, fun he => by cases he⟩
      · refine wp_bind.mpr ?_
        have hn : r ∉ [Result.eSuccess, Result.eTimeout] := by simp [hs, ht]
        rw [raii, if_neg hn]
        exact ⟨rfl, h₁, fun he => by cases he⟩

structure Recording (sub : Prop) (busy : Option ℕ) (b : VulkanBackend) (i : ℕ) (imageIdx : UInt32)
    (w : World) : Prop where
  base : Base sub busy (some i) w
  idle : i ∉ w.pending
  images : w.images = b.swapchain_.framebuffers_
  yielded : ⟨i, .eSuccess, imageIdx⟩ ∈ w.acquired

theorem stable_recording (sub : Prop) (busy : Option ℕ) (b : VulkanBackend) (i : ℕ)
    (imageIdx : UInt32) : World.service.Stable (Recording sub busy b i imageIdx) :=
  fun w d w' h hd => ⟨stable_base sub busy (some i) w d w' h.base hd,
    World.stable_idle i w d w' h.idle hd, World.stable_images _ w d w' h.images hd,
    World.stable_acquired _ w d w' h.yielded hd⟩

theorem Recording.uses {imageIdx : UInt32} (h : Recording sub busy b i imageIdx w) :
    w.Yielded i imageIdx := ⟨.eSuccess, rfl, h.yielded⟩

theorem recordBuff_served {imageIdx : UInt32} (hidx : imageIdx.toNat < b.swapchain_.framebuffers_)
    (h : Recording (K .eSuboptimalKHR) (some i) b i imageIdx w) :
    Served K (Frame.recordBuff_ i imageIdx) (fun r b' w' => r = .ok () ∧ b' = b ∧
      Recording (K .eSuboptimalKHR) (some i) b i imageIdx w' ∧
      w'.cmdBuff i = some imageIdx) b w := by
  refine wp_ask_bind (stable_recording _ _ b i imageIdx) h ?_ ?_
  · exact fun w' hw => ⟨hw.idle, fun _ => hw.uses⟩
  · intro x w₁ w₂ h₁ _ hx
    cases hx
    have h₂ : Recording (K .eSuboptimalKHR) (some i) b i imageIdx
        { w₁ with cmdBuff := update w₁.cmdBuff i none } :=
      ⟨h₁.base.congr rfl rfl rfl, h₁.2, h₁.3, h₁.4⟩
    refine wp_bind.mpr (wp_get_bind.mpr ?_)
    rw [if_pos hidx]
    refine (wp_pure ()).mpr (wp_ask_of (stable_recording _ _ b i imageIdx) h₂ ?_ ?_)
    · exact fun w' hw => ⟨hw.idle, fun _ => hw.uses⟩
    · intro x w₃ w₄ h₃ _ hx
      cases hx
      exact ⟨rfl, rfl, ⟨h₃.base.congr rfl rfl rfl, h₃.2, h₃.3, h₃.4⟩,
        update_self ..⟩

theorem submit_served {imageIdx : UInt32} {Q : Except Exn Unit → VulkanBackend → World → Prop}
    (h : Recording (K .eSuboptimalKHR) (some i) b i imageIdx w)
    (hc : w.cmdBuff i = some imageIdx)
    (hk : ∀ w', Inv (K .eSuboptimalKHR) b w' → w'.Yielded i imageIdx → Q (.ok ()) b w') :
    Served K (Frame.submit_ i) Q b w := by
  refine wp_ask_of ((stable_recording _ _ b i imageIdx).and (World.stable_cmdBuff i _)) ⟨h, hc⟩
    ?_ ?_
  · exact fun w' hw => ⟨trivial, fun _ => ⟨imageIdx, hw.2, hw.1.uses⟩⟩
  · intro x w₁ w₂ h₁ _ hx
    cases hx
    obtain ⟨h₁, _⟩ := h₁
    refine hk _ ⟨⟨fun j _ => ?_, ?_, by simp, fun hs j _ => ?_⟩, h₁.images.symm⟩ h₁.uses
    · show w₁.fence j = true ↔ j ∉ w₁.pending ++ [i]
      by_cases hj : j = i
      · subst hj
        simp [h₁.base.reset j rfl]
      · have hne : (some i : Option ℕ) ≠ some j := fun he => hj (Option.some.inj he).symm
        rw [h₁.base.fences j hne]
        simp [hj]
    · exact List.Nodup.append h₁.base.nodup (List.nodup_singleton i) (by simpa using h₁.idle)
    · show update w₁.presentSemaphore i .unsignaled j = .unsignaled
      by_cases hj : j = i
      · rw [hj, update_self]
      · rw [update_of_ne hj]
        exact h₁.base.unsignaled hs j fun he => hj (Option.some.inj he).symm

theorem present_served {imageIdx : UInt32} (h : Inv (K .eSuboptimalKHR) b w)
    (hy : w.Yielded i imageIdx) :
    Served K (Frame.present_ i imageIdx) (fun _ b' w' => Inv (K .eSuboptimalKHR) b w' ∧ b' = b)
      b w := by
  obtain ⟨r, hr, hm⟩ := hy
  refine wp_ask_bind ((stable_inv _ b).and (World.stable_acquired _)) ⟨h, hm⟩ ?_ ?_
  · exact fun w' hw => ⟨trivial, fun _ => ⟨r, hr, hw.2⟩⟩
  · intro x w₁ w₂ h₁ _ hx
    cases hx
    have hb := h₁.1.base
    exact check_served fun _ => ⟨⟨⟨hb.1, hb.2, hb.3, hb.4⟩, h₁.1.framebuffers⟩, rfl⟩

theorem acquired_served {imageIdx : UInt32} (hidx : imageIdx.toNat < b.swapchain_.framebuffers_)
    (h : Recording (K .eSuboptimalKHR) none b i imageIdx w) :
    Served K (do
      resetFences i
      Frame.recordBuff_ i imageIdx
      Frame.submit_ i
      Frame.present_ i imageIdx
      return true) (fun _ b' w' => Inv (K .eSuboptimalKHR) b w' ∧ b' = b) b w := by
  refine wp_ask_bind (stable_recording _ none b i imageIdx) h
    (fun w' hw => ⟨hw.idle, fun _ => trivial⟩) ?_
  intro x w₁ w₂ h₁ _ hx
  cases hx
  have h₂ : Recording (K .eSuboptimalKHR) (some i) b i imageIdx
      { w₁ with fence := update w₁.fence i false } := by
    refine ⟨⟨fun j hj => ?_, h₁.base.nodup, fun j hj => ?_, h₁.base.unsignaled⟩, h₁.2, h₁.3, h₁.4⟩
    · have hji : j ≠ i := fun he => hj (congrArg some he.symm)
      show update w₁.fence i false j = true ↔ _
      rw [update_of_ne hji]
      exact h₁.base.fences j (by simp)
    · obtain rfl := Option.some.inj hj
      exact ⟨update_self .., h₁.idle⟩
  refine wp_bind.mpr (wp_mono (recordBuff_served hidx h₂) ?_)
  rintro r b' w₃ ⟨rfl, rfl, h₃, hc⟩
  refine wp_bind.mpr (submit_served h₃ hc fun w₄ h₄ hy => ?_)
  refine wp_bind.mpr (wp_mono (present_served h₄ hy) ?_)
  rintro r b'' w₅ ⟨h₅, rfl⟩
  cases r with
  | ok u => exact ⟨h₅, rfl⟩
  | error e => exact ⟨h₅, rfl⟩

/-- Rendering a frame whose work has completed. -/
theorem render_served (hK : ∀ r, K r → r ∈ [Result.eSuccess, .eTimeout, .eSuboptimalKHR,
      .eErrorOutOfDateKHR])
    (h : Inv (K .eSuboptimalKHR) b w) (hi : i ∉ w.pending) :
    Served K (Frame.render i) (fun _ b' w' => Inv (K .eSuboptimalKHR) b' w' ∧
      b' = { b with pipeline_ := b'.pipeline_ }) b w := by
  have stable₀ : ∀ b, World.service.Stable fun w => Inv (K .eSuboptimalKHR) b w ∧ i ∉ w.pending :=
    fun b => (stable_inv _ b).and (World.stable_idle i)
  refine wp_ask_bind (stable₀ b) ⟨h, hi⟩ (fun w' hw => ⟨hw.2, fun _ => trivial⟩) ?_
  intro x w₁ w₂ h₁ _ hx
  cases hx
  refine wp_modify_bind.mpr ?_
  obtain ⟨b₁, hb⟩ : ∃ b₁, b₁ = ({ b with
      pipeline_ := b.pipeline_.update_dynamic_state b.swapchain_.dimensions } : VulkanBackend) :=
    ⟨_, rfl⟩
  rw [← hb]
  have hb₁ : b₁ = { b with pipeline_ := b₁.pipeline_ } := by rw [hb]
  have h₂ : Inv (K .eSuboptimalKHR) b₁ { w₁ with cmdBuff := update w₁.cmdBuff i none } := by
    refine ⟨h₁.1.base.congr rfl rfl rfl, ?_⟩
    rw [hb]
    exact h₁.1.framebuffers
  refine wp_ask_bind (stable₀ b₁) ⟨h₂, h₁.2⟩
    (fun w' hw => ⟨trivial, fun hs => hw.1.base.unsignaled hs i (by simp)⟩) ?_
  rintro ⟨r, imageIdx⟩ w₃ w₄ ⟨h₃, hi₃⟩ hr hx
  have hr : K r := hr
  by_cases hs : r = .eSuccess
  · subst hs
    obtain ⟨_, hidx, rfl⟩ | ⟨hy, _⟩ := World.acquire_cases hx
    · have h₄ : Recording (K .eSuboptimalKHR) none b₁ i imageIdx { w₃ with
          acquired := ⟨i, .eSuccess, imageIdx⟩ :: w₃.acquired
          presentSemaphore := update w₃.presentSemaphore i .pending } := by
        refine ⟨⟨h₃.base.1, h₃.base.2, h₃.base.3, fun hn j hj => ?_⟩, hi₃, h₃.framebuffers.symm,
          List.mem_cons_self⟩
        have hji : j ≠ i := fun he => hj (congrArg some he.symm)
        show update w₃.presentSemaphore i .pending j = _
        rw [update_of_ne hji]
        exact h₃.base.unsignaled hn j (by simp)
      refine wp_mono (acquired_served (h₃.framebuffers ▸ hidx) h₄) ?_
      rintro r b' w' ⟨h', rfl⟩
      exact ⟨h', hb₁⟩
    · cases hy
  · have htest : (decide (r = .eTimeout) || decide (r = .eSuboptimalKHR) ||
        decide (r = .eErrorOutOfDateKHR)) = true := by
      have hm := hK r hr
      simp only [List.mem_cons, hs, List.not_mem_nil, or_false, false_or] at hm
      rcases hm with rfl | rfl | rfl <;> decide
    simp only [htest, if_true]
    refine ⟨?_, hb₁⟩
    obtain ⟨hy, _, rfl⟩ | ⟨_, rfl⟩ := World.acquire_cases hx
    · -- a suboptimal acquire, which leaves its signal
      have hsub : K .eSuboptimalKHR := by
        cases r with
        | eSuboptimalKHR => exact hr
        | eSuccess => exact absurd rfl hs
        | _ => cases hy
      exact ⟨⟨h₃.base.1, h₃.base.2, h₃.base.3, fun hn => absurd hsub hn⟩, h₃.framebuffers⟩
    · exact ⟨h₃.base.congr rfl rfl rfl, h₃.framebuffers⟩

end

/-! ### The methods -/

section
variable {b : VulkanBackend}

/-- The results that the source expects of an acquire. -/
def expected : List Result := [.eSuccess, .eTimeout, .eSuboptimalKHR, .eErrorOutOfDateKHR]

theorem idle_served {Q : Except Exn Unit → VulkanBackend → World → Prop}
    (h : Inv (K .eSuboptimalKHR) b w)
    (hk : ∀ w', Quiet (K .eSuboptimalKHR) b.swapchain_.framebuffers_ w' → Q (.ok ()) b w') :
    Served K VulkanBackend.wait_for_idle_ Q b w := by
  refine wp_ask_of (stable_inv _ b) h (fun _ _ => ⟨trivial, fun _ => trivial⟩) ?_
  intro x w₁ w₂ h₁ _ hx
  obtain ⟨hp, hw⟩ := Option.ite_none_right_eq_some.mp hx
  cases hw
  exact hk _ ⟨h₁.base, hp, h₁.framebuffers.symm⟩

theorem Quiet.inv {b : VulkanBackend} (h : Quiet sub b.swapchain_.framebuffers_ w) : Inv sub b w :=
  ⟨h.base, h.images.symm⟩

theorem do_resize_served (h : Inv (K .eSuboptimalKHR) b w) :
    Served K (VulkanBackend.do_resize_ V) (fun _ b' w' => Inv (K .eSuboptimalKHR) b' w' ∧
      w'.pending = []) b w := by
  refine wp_bind.mpr (idle_served h fun w₁ h₁ => wp_mono (reset_served h₁) ?_)
  exact fun r b' w' hr => ⟨hr.2.inv, hr.2.allIdle⟩

theorem render_current_served (hK : ∀ r, K r → r ∈ expected) (i : ℕ)
    (h : Inv (K .eSuboptimalKHR) b w) :
    Served K (VulkanBackend.render_current V i) (fun _ b' w' => Inv (K .eSuboptimalKHR) b' w')
      b w := by
  -- rendering, from either side of the test
  have draw : ∀ b w, Inv (K .eSuboptimalKHR) b w → i ∉ w.pending →
      Served K (do
        let rendered ← Frame.render i
        if !rendered then
          modify fun b => { b with needsResizing_ := true }
        modify fun b => { b with frameIdx_ := (b.frameIdx_ + 1) % NUM_FRAMES_IN_FLIGHT })
        (fun _ b' w' => Inv (K .eSuboptimalKHR) b' w') b w := by
    intro b w h hi
    refine wp_bind.mpr (wp_mono (render_served hK h hi) ?_)
    rintro r b' w' ⟨h', _⟩
    cases r with
    | error e => exact h'
    | ok rendered => cases rendered with
      | true => exact ⟨h'.1, h'.2⟩
      | false => exact ⟨h'.1, h'.2⟩
  refine wp_bind.mpr (wp_mono (wait_served h) ?_)
  rintro r b₁ w₁ ⟨rfl, h₁, hi⟩
  cases r with
  | error e => exact h₁
  | ok waited =>
    refine wp_get_bind.mpr ?_
    by_cases hr : (!waited || b₁.needsResizing_) = true
    · rw [if_pos hr]
      refine wp_bind.mpr (wp_mono (do_resize_served h₁) ?_)
      rintro r b₂ w₂ ⟨h₂, hp⟩
      cases r with
      | error e => exact h₂
      | ok u =>
        refine wp_modify_bind.mpr (draw _ _ ⟨h₂.1, h₂.2⟩ ?_)
        simp [hp]
    · rw [if_neg hr]
      have hw : waited = true := by
        simp only [Bool.or_eq_true, Bool.not_eq_true', not_or, Bool.not_eq_false] at hr
        exact hr.1
      exact draw _ _ h₁ (hi (by rw [hw]))

theorem render_frame_served (hK : ∀ r, K r → r ∈ expected) (h : Inv (K .eSuboptimalKHR) b w) :
    Served K (VulkanBackend.render_frame V) (fun _ b' w' => Inv (K .eSuboptimalKHR) b' w') b w := by
  -- what comes after the rebuild
  have rest : ∀ b w, Inv (K .eSuboptimalKHR) b w → Served K (do
        let b ← get
        if b.frameIdx_ < NUM_FRAMES_IN_FLIGHT then
          if b.shouldRender_ then
            VulkanBackend.render_current V b.frameIdx_
        else
          throw .out_of_range) (fun _ b' w' => Inv (K .eSuboptimalKHR) b' w') b w := by
    intro b w h
    refine wp_get_bind.mpr ?_
    by_cases hf : b.frameIdx_ < NUM_FRAMES_IN_FLIGHT
    · rw [if_pos hf]
      cases hs : b.shouldRender_ with
      | true => exact render_current_served hK _ h
      | false => exact h
    · rw [if_neg hf]
      exact h
  refine wp_get_bind.mpr ?_
  cases hd : b.pipeline_.dirty with
  | false => exact rest b w h
  | true =>
    refine wp_bind.mpr (idle_served h fun w₁ h₁ => wp_bind.mpr (wp_mono (rebuild_served h₁) ?_))
    rintro r b₁ w₂ ⟨hb, h₂⟩
    have hsame : b₁.swapchain_ = b.swapchain_ := by rw [hb]
    have h₃ : Inv (K .eSuboptimalKHR) b₁ w₂ := Quiet.inv (hsame ▸ h₂)
    cases r with
    | error e => exact h₃
    | ok u => exact rest b₁ w₂ h₃

theorem handle_resize_served (h : Inv (K .eSuboptimalKHR) b w) :
    Served K VulkanBackend.handle_resize (fun _ b' w' => Inv (K .eSuboptimalKHR) b' w') b w := by
  refine wp_ask_bind (stable_inv _ b) h (fun _ _ => ⟨trivial, fun _ => trivial⟩) ?_
  intro dims w₁ w₂ h₁ _ hx
  obtain ⟨_, hw⟩ := Option.ite_none_right_eq_some.mp hx
  cases hw
  by_cases hd : dims.1 ≤ 0 ∨ dims.2 ≤ 0
  · rw [if_pos hd]
    exact ⟨h₁.1, h₁.2⟩
  · rw [if_neg hd]
    exact ⟨h₁.1, h₁.2⟩

theorem set_vertex_shader_served (shader : String) (h : Inv (K .eSuboptimalKHR) b w) :
    Served K (VulkanBackend.set_vertex_shader shader)
      (fun _ b' w' => Inv (K .eSuboptimalKHR) b' w') b w := by
  have rest : ∀ newShader w, Inv (K .eSuboptimalKHR) b w →
      Served K (Pipeline.method (Pipeline.set_shader .VERTEX newShader))
        (fun _ b' w' => Inv (K .eSuboptimalKHR) b' w') b w :=
    fun _ _ h => method_served fun _ => ⟨h.1, h.2⟩
  refine wp_ask_bind (stable_inv _ b) h (fun _ _ => ⟨trivial, fun _ => trivial⟩) ?_
  intro newShader w₁ w₂ h₁ _ hx
  cases hx
  cases newShader with
  | error e => exact rest _ w₁ h₁
  | ok s =>
    by_cases hv : s.valid = true
    · simp only [hv, if_true]
      refine wp_ask_bind (stable_inv _ b) h₁ (fun _ _ => ⟨trivial, fun _ => trivial⟩) ?_
      intro x w₂ w₃ h₂ _ hx
      cases hx
      exact rest _ w₂ h₂
    · simp only [hv]
      exact rest _ w₁ h₁

theorem call_served (hK : ∀ r, K r → r ∈ expected) (c : Call) (h : Inv (K .eSuboptimalKHR) b w) :
    Served K (c.run V) (fun _ b' w' => Inv (K .eSuboptimalKHR) b' w') b w := by
  cases c with
  | render_frame => exact render_frame_served hK h
  | handle_resize => exact handle_resize_served h
  | set_vertex_shader shader => exact set_vertex_shader_served shader h

end

/-! ### All runs -/

def sampleRenderer : Renderer :=
  .constructed (1280, 720) ⟨true, 3, 3, 1280, 720⟩ Pipeline.sample

def drawn (frame : ℕ) (imageIdx : UInt32) : List Act :=
  [.call (.resetCommandBuffer frame) (),
    .call (.acquireNextImageKHR frame) (Result.eSuccess, imageIdx), .call (.resetFences frame) (),
    .call (.beginCommandBuffer frame imageIdx) (), .call (.recordRenderPass frame imageIdx) (),
    .call (.submit frame) (), .call (.queuePresentKHR frame imageIdx) Result.eSuccess]

/-- `render_frame` up to the wait, which succeeds. -/
def waited (frame : ℕ) : List Act :=
  [.enter .render_frame, .call (.waitForFences frame) Result.eSuccess]

section
variable {window : UInt32 × UInt32} {s : Swapchain} {p : Pipeline} {t : Renderer} {op : Op}
  {k : op.Ans → Script Op Op.Ans (Except Exn Unit × VulkanBackend)}

theorem run_required (hK : ∀ r, K r → r ∈ expected)
    (h : RunUnder (Renderer.Step V) (fun _ a => a.Answers (AcquiresIn K))
      (Renderer.constructed window s p) t) (ht : t.task = .call op k) :
    Required (K .eSuboptimalKHR) op t.world := by
  have h₀ : Inv (K .eSuboptimalKHR) ⟨s, p, 0, false, true⟩
      (Renderer.constructed window s p).world :=
    ⟨⟨fun j _ => ⟨fun _ => List.not_mem_nil, fun _ => rfl⟩, List.nodup_nil, by simp,
      fun _ _ _ => rfl⟩, rfl⟩
  refine Client.guarded (stable_inv _) (fun c b w hw => ?_) h₀ h ht
  exact call_served hK c ⟨hw.base.congr rfl rfl rfl, hw.framebuffers⟩

/-- In whatever order the methods are called, and however Vulkan answers, what a frame uses is
reset and recorded when it has no pending submission, the pipeline and the swapchain are
destroyed when there is none at all, and the fence that is waited for is signaled or will be. -/
theorem reused_when_idle
    (h : RunUnder (Renderer.Step V) (fun _ a => a.Answers (AcquiresIn (· ∈ expected)))
      (Renderer.constructed window s p) t) (ht : t.task = .call op k) : Idle op t.world :=
  (run_required (fun _ hr => hr) h ht).1

/-- All three frames are in flight, the first completes, and is waited for. -/
def secondRound : List Act :=
  waited 0 ++ drawn 0 0 ++ waited 1 ++ drawn 1 1 ++ waited 2 ++ drawn 2 2 ++
    .drift (.completed 0) :: waited 0

theorem reused_when_idle_second : ∃ t k,
    follow (Renderer.step Pipeline.sampleDriver) secondRound sampleRenderer = some t ∧
      t.task = .call (.resetCommandBuffer 0) k ∧ t.world.pending = [1, 2] ∧
      Idle (.resetCommandBuffer 0) t.world := by
  have hrun : ∃ t k,
      follow (Renderer.step Pipeline.sampleDriver) secondRound sampleRenderer = some t ∧
        t.task = .call (.resetCommandBuffer 0) k ∧ t.world.pending = [1, 2] :=
    ⟨_, _, rfl, rfl, rfl⟩
  obtain ⟨t, k, hf, ht, hp⟩ := hrun
  have hexp : RunUnder (Renderer.Step Pipeline.sampleDriver)
      (fun _ a => a.Answers (AcquiresIn (· ∈ expected))) sampleRenderer t :=
    runUnder_of_follow hf (by
      simp [secondRound, waited, drawn, Client.Act.Answers, AcquiresIn, expected])
  exact ⟨t, k, hf, ht, hp, reused_when_idle hexp ht⟩

/-- When no acquire is suboptimal or fails with another error, acquires, submissions and
presentations are in order. -/
theorem acquires_in_order
    (h : RunUnder (Renderer.Step V)
      (fun _ a => a.Answers (AcquiresIn (· ∈ [.eSuccess, .eTimeout, .eErrorOutOfDateKHR])))
      (Renderer.constructed window s p) t) (ht : t.task = .call op k) : InOrder op t.world := by
  refine (run_required ?_ h ht).2 (by decide)
  intro r hr
  simp only [expected, List.mem_cons, List.not_mem_nil, or_false] at hr ⊢
  rcases hr with rfl | rfl | rfl <;> decide

/-- The first frame acquires once more, when its semaphore is free again. -/
theorem acquires_in_order_second : ∃ t k,
    follow (Renderer.step Pipeline.sampleDriver)
      (secondRound ++ [.call (.resetCommandBuffer 0) ()]) sampleRenderer = some t ∧
        t.task = .call (.acquireNextImageKHR 0) k ∧
        InOrder (.acquireNextImageKHR 0) t.world := by
  have hrun : ∃ t k, follow (Renderer.step Pipeline.sampleDriver)
      (secondRound ++ [.call (.resetCommandBuffer 0) ()]) sampleRenderer = some t ∧
        t.task = .call (.acquireNextImageKHR 0) k := ⟨_, _, rfl, rfl⟩
  obtain ⟨t, k, hf, ht⟩ := hrun
  have hexp : RunUnder (Renderer.Step Pipeline.sampleDriver)
      (fun _ a => a.Answers (AcquiresIn (· ∈ [.eSuccess, .eTimeout, .eErrorOutOfDateKHR])))
      sampleRenderer t :=
    runUnder_of_follow hf (by simp [secondRound, waited, drawn, Client.Act.Answers, AcquiresIn])
  exact ⟨t, k, hf, ht, acquires_in_order hexp ht⟩

/-- The acquire of the first frame is suboptimal: the frame is not submitted and its semaphore
keeps the signal. The other two frames are drawn, the swapchain is built anew on the way, and the
next acquire for the first frame is made with the semaphore signaled. -/
def suboptimalRound : List Act :=
  waited 0 ++ [.call (.resetCommandBuffer 0) (),
    .call (.acquireNextImageKHR 0) (Result.eSuboptimalKHR, 0), .drift (.available 0)] ++
  waited 1 ++ [.call .waitIdle (), .call (.destroy .framebuffers) (),
    .call (.destroy .imageViews) (), .call (.destroy .swapchain) (),
    .call .dimensions (1280, 720), .call (.buildSwapchain 1280 720) (.ok 3), .call .getImages 3,
    .call (.destroy .depthImage) (), .call (.destroy .depthImageView) ()] ++ drawn 1 0 ++
  waited 2 ++ drawn 2 1 ++
  waited 0 ++ [.call (.resetCommandBuffer 0) ()]

theorem suboptimal_leaves_signal :
    ¬ ∀ (V : Driver) (window : UInt32 × UInt32) (s : Swapchain) (p : Pipeline) (t : Renderer)
      (op : Op) (k : op.Ans → Script Op Op.Ans (Except Exn Unit × VulkanBackend)),
      Run (Renderer.Step V) (Renderer.constructed window s p) t → t.task = .call op k →
        InOrder op t.world := by
  intro h
  have hrun : ∃ t k, follow (Renderer.step Pipeline.sampleDriver) suboptimalRound sampleRenderer =
      some t ∧ t.task = .call (.acquireNextImageKHR 0) k ∧
        t.world.presentSemaphore 0 = .signaled := ⟨_, _, rfl, rfl, rfl⟩
  obtain ⟨t, k, hf, ht, hs⟩ := hrun
  have ho : t.world.presentSemaphore 0 = .unsignaled :=
    h Pipeline.sampleDriver _ _ _ t _ k (run_of_follow hf) ht
  rw [hs] at ho
  cases ho

end

end Omulator.Vk
