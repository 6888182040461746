import Omulator.Vk.Frames

/-!
# Resizing (`src/graphics/CoreGraphicsEngine.cpp`, `src/InputHandler.cpp`)

The window's thread changes the window, tells the engine's mailbox of each change and asks it for
frames. The engine's thread takes the messages in the order they were sent in, and reads the
window while it handles them.
-/

namespace Omulator.Vk

open Lib Routine

/-- Of a message, its handler is kept: the method of the backend that it calls. -/
structure Engine where
  renderer : Renderer
  queue : List Call
  /-- the message taken last, and `shouldRender_` when it was taken -/
  handling : Call
  rendering : Bool
  /-- the window has changed and `HANDLE_RESIZE` has not been sent -/
  changed : Bool

inductive Move where
  /-- the window's thread: the window changes, `HANDLE_RESIZE` and `RENDER_FRAME` are sent -/
  | resize (dims : UInt32 × UInt32)
  | announce
  | frame
  /-- any thread sends `SET_VERTEX_SHADER` -/
  | shader (shader : String)
  /-- the engine's thread: the next message is taken, and a call of its handler is answered -/
  | take
  | answer (op : Op) (x : op.Ans)
  /-- the GPU and the presentation engine -/
  | completed (frame : ℕ)
  | available (frame : ℕ)

variable (V : Driver)

namespace Engine

def step : Move → Engine → Option Engine
  | .resize dims, e =>
    if e.changed then none
    else some { e with
      renderer := { e.renderer with world := { e.renderer.world with window := dims } }
      changed := true }
  | .announce, e =>
    if e.changed then some { e with queue := e.queue ++ [.handle_resize], changed := false }
    else none
  | .frame, e =>
    if e.changed then none else some { e with queue := e.queue ++ [.render_frame] }
  | .shader shader, e => some { e with queue := e.queue ++ [.set_vertex_shader shader] }
  | .take, e =>
    match e.queue, e.renderer.task with
    | c :: queue, .ret (_, b) => (Renderer.step V (.enter c) e.renderer).map fun r =>
        { e with renderer := r, queue := queue, handling := c, rendering := b.shouldRender_ }
    | _, _ => none
  | .answer op x, e =>
    (Renderer.step V (.call op x) e.renderer).map fun r => { e with renderer := r }
  | .completed frame, e =>
    (Renderer.step V (.drift (.completed frame)) e.renderer).map fun r => { e with renderer := r }
  | .available frame, e =>
    (Renderer.step V (.drift (.available frame)) e.renderer).map fun r => { e with renderer := r }

def Step (e : Engine) (m : Move) (f : Engine) : Prop := step V m e = some f

def window (e : Engine) : UInt32 × UInt32 := e.renderer.world.window

def constructed (window : UInt32 × UInt32) (swapchain_ : Swapchain) (pipeline_ : Pipeline) :
    Engine where
  renderer := .constructed window swapchain_ pipeline_
  queue := []
  handling := .handle_resize
  rendering := false
  changed := false

end Engine

def visible (dims : UInt32 × UInt32) : Prop := dims.1 ≠ 0 ∧ dims.2 ≠ 0

instance (dims : UInt32 × UInt32) : Decidable (visible dims) := inferInstanceAs (Decidable (_ ∧ _))

theorem visible_iff (dims : UInt32 × UInt32) :
    visible dims ↔ ¬ (dims.1 ≤ 0 ∨ dims.2 ≤ 0) := by
  have h : ∀ n : UInt32, n ≤ 0 ↔ n = 0 := fun n => by
    rw [UInt32.le_iff_toNat_le, ← UInt32.toNat_inj]
    exact Nat.le_zero
  rw [visible, h, h, not_or]

/-- A frame is asked for with no `HANDLE_RESIZE` before it. -/
def uncovered : List Call → Bool
  | [] => false
  | .render_frame :: _ => true
  | .handle_resize :: _ => false
  | .set_vertex_shader _ :: queue => uncovered queue

theorem uncovered_append (queue : List Call) (c : Call) :
    uncovered (queue ++ [c]) =
      (uncovered queue || (c = .render_frame && .handle_resize ∉ queue)) := by
  induction queue with
  | nil => cases c <;> rfl
  | cons d queue ih => cases d with
    | render_frame => rfl
    | handle_resize => simp [uncovered]
    | set_vertex_shader shader => simp [uncovered, ih]

/-! ### What the methods read and change -/

def Keeps {α : Type} (P : Op → Prop) (m : M α) : Prop :=
  ∀ b, wp .any (fun op _ => P op) (fun _ _ => True)
    m (fun _ b' _ => b'.shouldRender_ = b.shouldRender_) b ()

section
variable {α β : Type} {P : Op → Prop}

theorem keeps_pure (a : α) : Keeps P (pure a : M α) := fun _ => rfl

theorem keeps_throw (e : Exn) : Keeps P (throw e : M α) := fun _ => rfl

theorem keeps_get : Keeps P (get : M VulkanBackend) := fun _ => rfl

theorem keeps_modify {f : VulkanBackend → VulkanBackend}
    (h : ∀ b, (f b).shouldRender_ = b.shouldRender_) : Keeps P (modify f : M PUnit) := h

theorem keeps_ask {op : Op} (h : P op) : Keeps P (ask op : M op.Ans) :=
  fun _ _ _ => ⟨h, fun _ _ _ _ => rfl⟩

theorem keeps_bind {m : M α} {f : α → M β} (hm : Keeps P m) (hf : ∀ a, Keeps P (f a)) :
    Keeps P (m >>= f) := by
  intro b
  refine wp_bind.mpr (wp_mono (hm b) fun r b' w' hb => ?_)
  cases r with
  | error e => exact hb
  | ok a => exact wp_mono (hf a b') fun r' b'' w'' hb' => hb'.trans hb

theorem keeps_ite {c : Prop} [Decidable c] {m m' : M α} (h : Keeps P m) (h' : Keeps P m') :
    Keeps P (if c then m else m') := by
  split
  · exact h
  · exact h'

theorem keeps_check (r : Except Exn Unit) : Keeps P (check r) := by
  cases r with
  | ok u => exact keeps_pure u
  | error e => exact keeps_throw e

theorem keeps_method (f : Pipeline → Except Exn Unit × Pipeline) : Keeps P (Pipeline.method f) :=
  fun b => wp_get_bind.mpr (wp_bind.mpr (keeps_check _ { b with pipeline_ := (f b.pipeline_).2 }))

theorem keeps_framebuffer (idx : UInt32) : Keeps P (Swapchain.framebuffer idx) :=
  keeps_bind keeps_get fun _ => keeps_ite (keeps_pure ()) (keeps_throw _)

section
variable {V} (hP : ∀ op, op ≠ .dimensions → P op)
include hP

theorem keeps_destroy (o : Object) : Keeps P (destroy o) := keeps_ask (hP _ nofun)

theorem keeps_rebuild : Keeps P (Pipeline.rebuild V) :=
  keeps_bind (keeps_destroy hP _) fun _ => keeps_bind (keeps_destroy hP _) fun _ => keeps_method _

theorem keeps_setShader (stage : ShaderStage) (shader : String) :
    Keeps P (Pipeline.setShader stage shader) := by
  refine keeps_bind (keeps_ask (hP _ nofun)) fun newShader => ?_
  cases newShader with
  | error e => exact keeps_method _
  | ok s =>
    exact keeps_ite (keeps_bind (keeps_destroy hP _) fun _ => keeps_method _) (keeps_method _)

theorem keeps_wait (i : ℕ) : Keeps P (Frame.wait i) := by
  refine keeps_bind (keeps_ask (hP _ nofun)) fun r => keeps_bind ?_ fun _ =>
    keeps_bind (keeps_check _) fun _ => keeps_ite (keeps_pure _) (keeps_pure _)
  exact keeps_ite (keeps_pure _) (keeps_throw _)

theorem keeps_recordBuff (i : ℕ) (idx : UInt32) : Keeps P (Frame.recordBuff_ i idx) :=
  keeps_bind (keeps_ask (hP _ nofun)) fun _ => keeps_bind (keeps_framebuffer idx) fun _ =>
    keeps_ask (hP _ nofun)

theorem keeps_present (i : ℕ) (idx : UInt32) : Keeps P (Frame.present_ i idx) :=
  keeps_bind (keeps_ask (hP _ nofun)) fun _ => keeps_check _

theorem keeps_render (i : ℕ) : Keeps P (Frame.render i) := by
  refine keeps_bind (keeps_ask (hP _ nofun)) fun _ => keeps_bind (keeps_modify fun _ => rfl)
    fun _ => keeps_bind (keeps_ask (hP _ nofun)) fun x => keeps_ite (keeps_pure _) ?_
  exact keeps_bind (keeps_ask (hP _ nofun)) fun _ => keeps_bind (keeps_recordBuff hP i x.2)
    fun _ => keeps_bind (keeps_ask (hP _ nofun)) fun _ => keeps_bind (keeps_present hP i x.2)
      fun _ => keeps_pure _

end

section
variable {V} (hP : ∀ op, P op)
include hP

theorem keeps_build_swapchain : Keeps P (Swapchain.build_swapchain_ V) := by
  refine keeps_bind (keeps_ask (hP _)) fun _ => keeps_bind (keeps_modify fun _ => rfl) fun _ =>
    keeps_bind (keeps_ask (hP _)) fun r => ?_
  cases r with
  | ok n => exact keeps_pure _
  | error reason => exact keeps_throw _

theorem keeps_reset : Keeps P (Swapchain.reset V) := by
  have hd : ∀ o, Keeps P (destroy o) := keeps_destroy fun op _ => hP op
  have hu : ∀ f, Keeps P (Swapchain.update f) := fun f => keeps_modify fun _ => rfl
  have hclear : Keeps P Swapchain.clear_ :=
    keeps_bind (hd _) fun _ => keeps_bind (hu _) fun _ => keeps_bind (hd _) fun _ =>
      keeps_bind (hu _) fun _ => hd _
  have hdepth : Keeps P Swapchain.build_depth_image_views_ :=
    keeps_bind keeps_get fun _ => keeps_ite
      (keeps_bind (hd _) fun _ => keeps_bind (hu _) fun _ => hd _)
      (keeps_bind (hu _) fun _ => hd _)
  exact keeps_bind hclear fun _ => keeps_bind (keeps_build_swapchain hP) fun _ =>
    keeps_bind (keeps_bind (keeps_ask (hP _)) fun _ => hu _) fun _ =>
      keeps_bind hdepth fun _ => hu _

theorem keeps_render_current (i : ℕ) : Keeps P (VulkanBackend.render_current V i) := by
  have hdraw : Keeps P (do
      let rendered ← Frame.render i
      if !rendered then
        modify fun b => { b with needsResizing_ := true }
      modify fun b => { b with frameIdx_ := (b.frameIdx_ + 1) % NUM_FRAMES_IN_FLIGHT }) :=
    keeps_bind (keeps_render (fun op _ => hP op) i) fun _ =>
      keeps_ite (keeps_bind (keeps_modify fun _ => rfl) fun _ => keeps_modify fun _ => rfl)
        (keeps_modify fun _ => rfl)
  refine keeps_bind (keeps_wait (fun op _ => hP op) i) fun _ => keeps_bind keeps_get fun _ =>
    keeps_ite ?_ hdraw
  exact keeps_bind (keeps_bind (keeps_ask (hP _)) fun _ => keeps_reset hP) fun _ =>
    keeps_bind (keeps_modify fun _ => rfl) fun _ => hdraw

end
end

theorem render_frame_reads {V : Driver} (b : VulkanBackend) :
    wp .any (fun op _ => b.shouldRender_ = false → op ≠ Op.dimensions) (fun _ _ => True)
      (VulkanBackend.render_frame V) (fun _ b' _ => b'.shouldRender_ = b.shouldRender_) b () := by
  have hP : ∀ op, op ≠ Op.dimensions → b.shouldRender_ = false → op ≠ Op.dimensions :=
    fun _ h _ => h
  have rest : ∀ b', b'.shouldRender_ = b.shouldRender_ →
      wp .any (fun op _ => b.shouldRender_ = false → op ≠ Op.dimensions) (fun _ _ => True) (do
        let b ← get
        if b.frameIdx_ < NUM_FRAMES_IN_FLIGHT then
          if b.shouldRender_ then
            VulkanBackend.render_current V b.frameIdx_
        else
          throw Exn.out_of_range) (fun _ b'' _ => b''.shouldRender_ = b.shouldRender_) b' () := by
    intro b' hb
    refine wp_get_bind.mpr ?_
    by_cases hf : b'.frameIdx_ < NUM_FRAMES_IN_FLIGHT
    · rw [if_pos hf]
      cases hs : b'.shouldRender_ with
      | true =>
        have hn : ∀ op : Op, b.shouldRender_ = false → op ≠ Op.dimensions := fun op hfalse => by
          rw [← hb, hs] at hfalse
          cases hfalse
        exact wp_mono (keeps_render_current hn _ b') fun _ _ _ h => h.trans hb
      | false => exact hb
    · rw [if_neg hf]
      exact hb
  refine wp_get_bind.mpr ?_
  cases hd : b.pipeline_.dirty with
  | false => exact rest b rfl
  | true =>
    have hw : Keeps (fun op => b.shouldRender_ = false → op ≠ Op.dimensions)
        VulkanBackend.wait_for_idle_ := keeps_ask (hP _ nofun)
    refine wp_bind.mpr (wp_mono (hw b) fun r₁ b₁ _ h₁ => ?_)
    cases r₁ with
    | error e => exact h₁
    | ok u =>
      refine wp_bind.mpr (wp_mono (keeps_rebuild hP b₁) fun r₂ b₂ _ h₂ => ?_)
      cases r₂ with
      | error e => exact h₂.trans h₁
      | ok u => exact rest b₂ (h₂.trans h₁)

theorem handle_resize_start (b : VulkanBackend) : ∃ k,
    VulkanBackend.handle_resize.start b = .call Op.dimensions k ∧
      ∀ d, ∃ r b', k d = .ret (r, b') ∧ (b'.shouldRender_ = true ↔ visible d) := by
  refine ⟨fun d => (if d.1 ≤ 0 ∨ d.2 ≤ 0 then modify fun b => { b with shouldRender_ := false }
    else modify fun b => { b with shouldRender_ := true, needsResizing_ := true } : M Unit).start b,
    rfl, fun d => ?_⟩
  by_cases hd : d.1 ≤ 0 ∨ d.2 ≤ 0
  · refine ⟨.ok (), { b with shouldRender_ := false }, ?_,
      iff_of_false Bool.false_ne_true fun h => (visible_iff d).mp h hd⟩
    dsimp only
    rw [if_pos hd]
    rfl
  · refine ⟨.ok (), { b with shouldRender_ := true, needsResizing_ := true }, ?_,
      iff_of_true rfl ((visible_iff d).mpr hd)⟩
    dsimp only
    rw [if_neg hd]
    rfl

/-! ### Who may see a hidden window -/

namespace Engine

/-- The `render_frame` that is running may still read the window. -/
def Reads (e : Engine) : Prop :=
  e.handling = .render_frame ∧ e.renderer.task.May (· = .dimensions)

/-- The next message will find `shouldRender_` set, if the window is hidden till then. -/
def Renders (e : Engine) : Prop :=
  match e.renderer.task with
  | .ret (_, b) => b.shouldRender_ = true
  | .call _ _ => e.handling ≠ .handle_resize ∧ e.rendering = true

/-- A `RENDER_FRAME` that has been sent may still rebuild the swapchain before a `HANDLE_RESIZE` is
handled. -/
def Exposed (e : Engine) : Prop := e.Reads ∨ e.Renders ∧ uncovered e.queue = true

def Handles (e : Engine) : Prop :=
  match e.handling with
  | .handle_resize => (∃ b, e.renderer.task = VulkanBackend.handle_resize.start b) ∨
      ∃ x, e.renderer.task = .ret x
  | .render_frame => e.renderer.task.Safe .any
      (fun op _ => e.rendering = false → op ≠ .dimensions) (fun _ _ => True)
      (fun x _ => x.2.shouldRender_ = e.rendering) ()
  | .set_vertex_shader _ => e.renderer.task.Safe .any (fun _ _ => True) (fun _ _ => True)
      (fun x _ => x.2.shouldRender_ = e.rendering) ()

structure Inv (e : Engine) : Prop where
  handles : e.Handles
  hidden : ¬ visible e.window → ¬ e.Exposed
  /-- no message that is sent now will be exposed -/
  closed : ¬ visible e.window → e.changed = false → Call.handle_resize ∈ e.queue ∨ ¬ e.Renders

/-- The window is hidden only while no frame is exposed to it. -/
def Seen (e : Engine) : Move → Prop
  | .resize dims => visible dims ∨ ¬ e.Exposed
  | .announce | .frame | .shader _ | .take | .answer _ _ | .completed _ | .available _ => True

variable {V} {e f : Engine}

theorem Handles.renders (h : e.Handles) (hn : e.handling ≠ .handle_resize) :
    e.Renders ↔ e.rendering = true := by
  unfold Renders
  cases ht : e.renderer.task with
  | call op k => exact ⟨fun hr => hr.2, fun hr => ⟨hn, hr⟩⟩
  | ret x =>
    have hx : x.2.shouldRender_ = e.rendering := by
      unfold Handles at h
      rw [ht] at h
      cases hh : e.handling with
      | handle_resize => exact absurd hh hn
      | render_frame =>
        rw [hh] at h
        exact h
      | set_vertex_shader shader =>
        rw [hh] at h
        exact h
    show x.2.shouldRender_ = true ↔ _
    rw [hx]

theorem Handles.not_reads (h : e.Handles) (hr : e.rendering = false) : ¬ e.Reads := by
  rintro ⟨hh, hm⟩
  unfold Handles at h
  rw [hh] at h
  exact Script.not_may h (fun op hg => hg hr) hm

theorem start_handles (b : VulkanBackend) (c : Call) (he : e.renderer.task = (c.run V).start b)
    (hh : e.handling = c) (hr : e.rendering = b.shouldRender_) : e.Handles := by
  unfold Handles
  rw [hh, he, hr]
  cases c with
  | handle_resize => exact Or.inl ⟨b, rfl⟩
  | render_frame => exact render_frame_reads b
  | set_vertex_shader shader =>
    exact keeps_setShader (P := fun _ => True) (fun _ _ => trivial) _ _ b

theorem answer_handles (h : e.Handles) {op : Op} {k : op.Ans → Script Op Op.Ans _} (x : op.Ans)
    (ht : e.renderer.task = .call op k) (w : World) :
    ({ e with renderer := ⟨w, k x⟩ } : Engine).Handles := by
  unfold Handles at h ⊢
  rw [ht] at h
  cases hh : e.handling with
  | handle_resize =>
    rw [hh] at h
    obtain ⟨b, hb⟩ | ⟨y, hy⟩ := h
    · obtain ⟨k', hk, hd⟩ := handle_resize_start b
      rw [hk] at hb
      cases hb
      obtain ⟨r, b', hret, _⟩ := hd x
      exact Or.inr ⟨_, hret⟩
    · cases hy
  | render_frame =>
    rw [hh] at h
    exact (h () .refl).2 x () trivial rfl
  | set_vertex_shader shader =>
    rw [hh] at h
    exact (h () .refl).2 x () trivial rfl

/-- Sending a message: only a `RENDER_FRAME` can become exposed, and not when it is covered. -/
theorem Inv.send (h : e.Inv) (c : Call) (changed : Bool)
    (hc : ¬ visible e.window → c = .render_frame →
      Call.handle_resize ∈ e.queue ∨ ¬ e.Renders)
    (hcl : ¬ visible e.window → changed = false →
      Call.handle_resize ∈ e.queue ++ [c] ∨ ¬ e.Renders) :
    ({ e with queue := e.queue ++ [c], changed := changed } : Engine).Inv := by
  refine ⟨h.handles, fun hv hx => ?_, hcl⟩
  have hn := h.hidden hv
  rcases hx with hx | ⟨hr, hu⟩
  · exact hn (Or.inl hx)
  · have hu' : uncovered (e.queue ++ [c]) = true := hu
    rw [uncovered_append, Bool.or_eq_true, Bool.and_eq_true] at hu'
    rcases hu' with hu' | ⟨hcf, hq⟩
    · exact hn (Or.inr ⟨hr, hu'⟩)
    · rcases hc hv (of_decide_eq_true hcf) with hm | hm
      · exact absurd hm (of_decide_eq_true hq)
      · exact hm hr

/-- Taking a message: a `RENDER_FRAME` that is taken while the window is hidden was not exposed, so
it does not render. -/
theorem Inv.take (h : e.Inv) {c : Call} (hq : e.queue = c :: f.queue) {r : Except Exn Unit}
    {b : VulkanBackend} (ht : e.renderer.task = .ret (r, b))
    (hft : f.renderer.task = (c.run V).start b) (hfw : f.window = e.window)
    (hfh : f.handling = c) (hfr : f.rendering = b.shouldRender_) (hfc : f.changed = e.changed) :
    f.Inv := by
  have hh : f.Handles := start_handles b c hft hfh hfr
  have hrend : e.Renders ↔ f.rendering = true := by
    unfold Renders
    rw [ht, hfr]
  have hbefore : ¬ visible f.window → ¬ (f.rendering = true ∧ uncovered (c :: f.queue) = true) := by
    intro hv hx
    rw [hfw] at hv
    rw [← hq] at hx
    exact h.hidden hv (Or.inr ⟨hrend.mpr hx.1, hx.2⟩)
  have hbclosed : ¬ visible f.window → f.changed = false →
      Call.handle_resize ∈ c :: f.queue ∨ ¬ f.rendering = true := by
    intro hv hcf
    rw [hfw] at hv
    rw [hfc] at hcf
    rw [← hq, ← hrend]
    exact h.closed hv hcf
  cases c with
  | handle_resize =>
    obtain ⟨k, hk, _⟩ := handle_resize_start b
    have hno : ¬ f.Renders := by
      unfold Renders
      rw [hft, Call.run, hk]
      exact fun hx => hx.1 hfh
    refine ⟨hh, fun _ hx => ?_, fun _ _ => Or.inr hno⟩
    rcases hx with hx | hx
    · have hcon := hfh.symm.trans hx.1
      cases hcon
    · exact hno hx.1
  | render_frame =>
    have hn : f.handling ≠ .handle_resize := by rw [hfh]; exact nofun
    have hoff : ¬ visible f.window → f.rendering = false := by
      intro hv
      cases hr : f.rendering with
      | false => rfl
      | true => exact absurd ⟨hr, rfl⟩ (hbefore hv)
    have hno : ¬ visible f.window → ¬ f.Renders := by
      intro hv hx
      rw [hh.renders hn, hoff hv] at hx
      cases hx
    refine ⟨hh, fun hv hx => ?_, fun hv _ => Or.inr (hno hv)⟩
    rcases hx with hx | hx
    · exact hh.not_reads (hoff hv) hx
    · exact hno hv hx.1
  | set_vertex_shader shader =>
    have hn : f.handling ≠ .handle_resize := by rw [hfh]; exact nofun
    have hiff := hh.renders hn
    refine ⟨hh, fun hv hx => ?_, fun hv hcf => ?_⟩
    · rcases hx with hx | hx
      · have hcon := hfh.symm.trans hx.1
        cases hcon
      · exact hbefore hv ⟨hiff.mp hx.1, hx.2⟩
    · rw [hiff]
      rcases hbclosed hv hcf with hm | hm
      · rcases List.mem_cons.mp hm with hm | hm
        · cases hm
        · exact Or.inl hm
      · exact Or.inr hm

theorem answer_renders (h : e.Handles) (hv : ¬ visible e.window) {op : Op}
    {k : op.Ans → Script Op Op.Ans _} {x : op.Ans} {w : World} (ht : e.renderer.task = .call op k)
    (hw : World.answer op x e.renderer.world = some w)
    (hx : ({ e with renderer := ⟨w, k x⟩ } : Engine).Renders) : e.Renders := by
  have hh : ({ e with renderer := ⟨w, k x⟩ } : Engine).Handles := answer_handles h x ht w
  by_cases hn : e.handling = .handle_resize
  · unfold Handles at h
    rw [hn, ht] at h
    obtain ⟨b, hb⟩ | ⟨y, hy⟩ := h
    · obtain ⟨k', hk, hd⟩ := handle_resize_start b
      rw [hk] at hb
      cases hb
      obtain ⟨r, b', hret, hs⟩ := hd x
      have hxw : x = e.window := (Option.ite_none_right_eq_some.mp hw).1
      unfold Renders at hx
      simp only [hret] at hx
      exact absurd (hxw ▸ hs.mp hx) hv
    · cases hy
  · rw [h.renders hn]
    exact (hh.renders hn).mp hx

theorem Inv.answer (h : e.Inv) {op : Op} {k : op.Ans → Script Op Op.Ans _} {x : op.Ans} {w : World}
    (ht : e.renderer.task = .call op k) (hw : World.answer op x e.renderer.world = some w)
    (hww : w.window = e.window) : ({ e with renderer := ⟨w, k x⟩ } : Engine).Inv := by
  refine ⟨answer_handles h.handles x ht w, fun hv hx => ?_, fun hv hc => ?_⟩
  · have hv' : ¬ visible e.window := hww ▸ hv
    refine h.hidden hv' ?_
    rcases hx with ⟨hf, hm⟩ | ⟨hr, hu⟩
    · refine Or.inl ⟨hf, ?_⟩
      rw [ht]
      exact Or.inr ⟨x, hm⟩
    · exact Or.inr ⟨answer_renders h.handles hv' ht hw hr, hu⟩
  · have hv' : ¬ visible e.window := hww ▸ hv
    exact (h.closed hv' hc).imp_right fun hn hr => hn (answer_renders h.handles hv' ht hw hr)

theorem Inv.world (h : e.Inv) {w : World} (hw : w.window = e.window) :
    ({ e with renderer := { e.renderer with world := w } } : Engine).Inv := by
  refine ⟨h.handles, fun hv => ?_, fun hv => ?_⟩
  · exact h.hidden (hw ▸ hv)
  · exact h.closed (hw ▸ hv)

theorem Inv.resize (h : e.Inv) {dims : UInt32 × UInt32} (hs : visible dims ∨ ¬ e.Exposed) :
    ({ e with renderer := { e.renderer with world := { e.renderer.world with window := dims } },
              changed := true } : Engine).Inv := by
  refine ⟨h.handles, fun hv => ?_, fun _ hc => by cases hc⟩
  exact hs.resolve_left hv

theorem step_inv (h : e.Inv) {m : Move} (hs : e.Seen m) (hst : Engine.Step V e m f) : f.Inv := by
  cases m with
  | resize dims =>
    obtain ⟨_, hf⟩ := Option.ite_none_left_eq_some.mp hst
    cases hf
    exact h.resize hs
  | announce =>
    obtain ⟨hc, hf⟩ := Option.ite_none_right_eq_some.mp hst
    cases hf
    exact h.send .handle_resize false nofun fun _ _ => Or.inl (by simp)
  | frame =>
    obtain ⟨hc, hf⟩ := Option.ite_none_left_eq_some.mp hst
    cases hf
    have hc' : e.changed = false := by simpa using hc
    refine h.send .render_frame e.changed (fun hv _ => h.closed hv hc') fun hv _ => ?_
    exact (h.closed hv hc').imp_left fun hm => List.mem_append_left _ hm
  | shader shader =>
    cases hst
    refine h.send (.set_vertex_shader shader) e.changed nofun fun hv hc => ?_
    exact (h.closed hv hc).imp_left fun hm => List.mem_append_left _ hm
  | take =>
    simp only [Step, step] at hst
    split at hst
    · rename_i c queue r b hq ht
      obtain ⟨r', hr, rfl⟩ := Option.map_eq_some_iff.mp hst
      obtain ⟨⟨w, p⟩, queue', handling, rendering, changed⟩ := e
      subst hq ht
      cases hr
      exact h.take (c := c) rfl rfl rfl rfl rfl rfl rfl
    · cases hst
  | answer op x =>
    obtain ⟨r, hr, rfl⟩ := Option.map_eq_some_iff.mp hst
    obtain ⟨⟨w, p⟩, queue, handling, rendering, changed⟩ := e
    cases p with
    | ret y => cases hr
    | call op' k =>
      simp only [Renderer.step, Client.step] at hr
      split at hr
      · rename_i he
        subst he
        obtain ⟨w', hw, rfl⟩ := Option.map_eq_some_iff.mp hr
        exact h.answer rfl hw (World.answer_window hw)
      · cases hr
  | completed frame =>
    obtain ⟨r, hr, rfl⟩ := Option.map_eq_some_iff.mp hst
    obtain ⟨w, hw, rfl⟩ := Option.map_eq_some_iff.mp hr
    obtain ⟨_, hw⟩ := Option.ite_none_right_eq_some.mp hw
    cases hw
    exact h.world rfl
  | available frame =>
    obtain ⟨r, hr, rfl⟩ := Option.map_eq_some_iff.mp hst
    obtain ⟨w, hw, rfl⟩ := Option.map_eq_some_iff.mp hr
    obtain ⟨_, hw⟩ := Option.ite_none_right_eq_some.mp hw
    cases hw
    exact h.world rfl

/-! ### All runs -/

variable {window d : UInt32 × UInt32} {s : Swapchain} {p : Pipeline}

/-- If the window is visible at first and is never hidden while a frame is exposed to it, every
rebuild of the swapchain in `render_frame` reads the dimensions of a visible window. -/
theorem rebuilt_when_visible (hw : visible window)
    (h : RunUnder (Engine.Step V) Seen (constructed window s p) e)
    (hst : Engine.Step V e (.answer .dimensions d) f) (hr : e.handling = .render_frame) :
    visible d := by
  have h₀ : (constructed window s p).Inv :=
    ⟨Or.inr ⟨_, rfl⟩, fun hv => absurd hw hv, fun hv => absurd hw hv⟩
  have hI : e.Inv := RunUnder.invariant Engine.Inv h h₀ fun t m u ht hm hu => step_inv ht hm hu
  obtain ⟨r, hc, _⟩ := Option.map_eq_some_iff.mp hst
  obtain ⟨⟨w, q⟩, queue, handling, rendering, changed⟩ := e
  cases q with
  | ret y => cases hc
  | call op k =>
    simp only [Renderer.step, Client.step] at hc
    split at hc
    · rename_i ho
      subst ho
      obtain ⟨w', hx, _⟩ := Option.map_eq_some_iff.mp hc
      have hd : d = w.window := (Option.ite_none_right_eq_some.mp hx).1
      by_contra hv
      rw [hd] at hv
      exact hI.hidden hv (Or.inl ⟨hr, Or.inl rfl⟩)
    · cases hc

/-- A window, whose change is announced before a frame is asked for. -/
def resizeMoves : List Move :=
  [.resize (800, 600), .announce, .frame, .take, .answer .dimensions (800, 600)]

/-- The frame is handled up to the point where its rebuild reads the window. -/
def rebuildMoves : List Move :=
  [.take, .answer (.waitForFences 0) Result.eSuccess, .answer .waitIdle (),
    .answer (.destroy .framebuffers) (), .answer (.destroy .imageViews) (),
    .answer (.destroy .swapchain) ()]

def sample : Engine := constructed (1280, 720) ⟨true, 3, 3, 1280, 720⟩ Pipeline.sample

theorem rebuilt_when_visible_resize : ∃ e f : Engine,
    follow (step Pipeline.sampleDriver) (resizeMoves ++ rebuildMoves) sample = some e ∧
      Engine.Step Pipeline.sampleDriver e (.answer .dimensions (800, 600)) f ∧
      e.handling = .render_frame ∧ visible ((800, 600) : UInt32 × UInt32) := by
  have hm : ∀ m ∈ resizeMoves ++ rebuildMoves, ∀ dims, m = .resize dims → visible dims := by
    intro m hm dims hd
    subst hd
    have hdims : dims = (800, 600) := by simpa [resizeMoves, rebuildMoves] using hm
    exact hdims ▸ (by decide : visible (800, 600))
  have hrun : ∃ e f : Engine,
      follow (step Pipeline.sampleDriver) (resizeMoves ++ rebuildMoves) sample = some e ∧
        Engine.Step Pipeline.sampleDriver e (.answer .dimensions (800, 600)) f ∧
        e.handling = .render_frame := ⟨_, _, rfl, rfl, rfl⟩
  obtain ⟨e, f, he, hf, hr⟩ := hrun
  have hseen : RunUnder (Engine.Step Pipeline.sampleDriver) Seen sample e :=
    (runUnder_of_follow he hm).weaken fun t m hm => by
      cases m with
      | resize dims => exact Or.inl (hm dims rfl)
      | _ => trivial
  exact ⟨e, f, he, hf, hr, rebuilt_when_visible (by decide) hseen hf hr⟩

/-- The frame that follows a resize is about to be handled when the window is minimized. -/
theorem rebuilt_when_minimized :
    ¬ ∀ (V : Driver) (window d : UInt32 × UInt32) (s : Swapchain) (p : Pipeline) (e f : Engine),
      visible window → Run (Engine.Step V) (constructed window s p) e →
        Engine.Step V e (.answer .dimensions d) f → e.handling = .render_frame → visible d := by
  intro h
  have hrun : ∃ e f : Engine, follow (step Pipeline.sampleDriver)
      (resizeMoves ++ [.resize (0, 0), .announce] ++ rebuildMoves) sample = some e ∧
      Engine.Step Pipeline.sampleDriver e (.answer .dimensions (0, 0)) f ∧
      e.handling = .render_frame := ⟨_, _, rfl, rfl, rfl⟩
  obtain ⟨e, f, he, hf, hr⟩ := hrun
  have hv : visible ((0, 0) : UInt32 × UInt32) :=
    h Pipeline.sampleDriver (1280, 720) (0, 0) _ _ e f (by decide) (run_of_follow he) hf hr
  exact absurd hv (by decide)

end Engine
end Omulator.Vk
