import Omulator.Vk.Device

/-!
# VulkanBackend (`src/VulkanBackend.cpp`, `src/vkmisc/Frame.cpp`, `src/vkmisc/Swapchain.cpp`)

The methods are routines that keep the members of the backend, of its swapchain and of its
pipeline. What is drawn is left out: the matrices, the mesh, and the commands that draw it.
-/

namespace Omulator.Vk

open Lib Routine

structure Swapchain where
  /-- whether `depthImage_.pAllocation` is not null -/
  depthImage_ : Bool
  /-- how many there are of them -/
  framebuffers_ : ℕ
  imageViews_ : ℕ
  surfaceWidth : UInt32
  surfaceHeight : UInt32
  deriving DecidableEq, Repr

def NUM_FRAMES_IN_FLIGHT : ℕ := 3

/-- `frames_` holds the frames 0, 1 and 2, whose members never change. -/
structure VulkanBackend where
  swapchain_ : Swapchain
  pipeline_ : Pipeline
  frameIdx_ : ℕ
  needsResizing_ : Bool
  shouldRender_ : Bool

abbrev M := Routine Op Op.Ans VulkanBackend Exn

variable (V : Driver)

/-! ### The calls -/

def dimensions : M (UInt32 × UInt32) := ask Op.dimensions

def waitIdle : M Unit := ask Op.waitIdle

def waitForFences (frame : ℕ) : M Result := ask (Op.waitForFences frame)

def resetFences (frame : ℕ) : M Unit := ask (Op.resetFences frame)

def resetCommandBuffer (frame : ℕ) : M Unit := ask (Op.resetCommandBuffer frame)

def acquireNextImageKHR (frame : ℕ) : M (Result × UInt32) := ask (Op.acquireNextImageKHR frame)

def beginCommandBuffer (frame : ℕ) (imageIdx : UInt32) : M Unit :=
  ask (Op.beginCommandBuffer frame imageIdx)

def recordRenderPass (frame : ℕ) (imageIdx : UInt32) : M Unit :=
  ask (Op.recordRenderPass frame imageIdx)

def submit (frame : ℕ) : M Unit := ask (Op.submit frame)

def queuePresentKHR (frame : ℕ) (imageIdx : UInt32) : M Result :=
  ask (Op.queuePresentKHR frame imageIdx)

def destroy (o : Object) : M Unit := ask (Op.destroy o)

def buildSwapchain (width height : UInt32) : M (Except String ℕ) :=
  ask (Op.buildSwapchain width height)

def getImages : M ℕ := ask Op.getImages

def loadShader (shader : String) : M (Except Exn Shader) := ask (Op.loadShader shader)

def check (r : Except Exn Unit) : M Unit :=
  match r with
  | .ok _ => pure ()
  | .error e => throw e

/-- `vk::raii` throws when a call gives none of the results it knows as a success. -/
def raii (successes : List Result) (r : Result) : M Unit :=
  if r ∈ successes then pure () else throw (.system_error r)

namespace Swapchain

def update (f : Swapchain → Swapchain) : M Unit :=
  modify fun b => { b with swapchain_ := f b.swapchain_ }

def dimensions (s : Swapchain) : UInt32 × UInt32 := (s.surfaceWidth, s.surfaceHeight)

/-- Throws when there is no such framebuffer. -/
def framebuffer (idx : UInt32) : M Unit := do
  let b ← get
  if idx.toNat < b.swapchain_.framebuffers_ then pure () else throw .out_of_range

def clear_ : M Unit := do
  destroy .framebuffers
  update fun s => { s with framebuffers_ := 0 }
  destroy .imageViews
  update fun s => { s with imageViews_ := 0 }
  destroy .swapchain

def build_swapchain_ : M Unit := do
  let dims ← Vk.dimensions
  update fun s => { s with surfaceWidth := dims.1, surfaceHeight := dims.2 }
  match ← buildSwapchain dims.1 dims.2 with
  | .ok _ => pure ()
  | .error reason =>
    throw (vk_fatal ("vk-bootstrap return failure for type " ++ V.swapchainReturn ++
      "; reason: " ++ reason))

/-- One more image view for each image. -/
def build_image_views_ : M Unit := do
  let images ← getImages
  update fun s => { s with imageViews_ := s.imageViews_ + images }

/-- The assignment to `depthImageView_` destroys the view it held. -/
def build_depth_image_views_ : M Unit := do
  let b ← get
  if b.swapchain_.depthImage_ then
    destroy .depthImage
  update fun s => { s with depthImage_ := true }
  destroy .depthImageView

/-- One more framebuffer for each image view. -/
def build_framebuffers_ : M Unit :=
  update fun s => { s with framebuffers_ := s.framebuffers_ + s.imageViews_ }

def reset : M Unit := do
  clear_
  build_swapchain_ V
  build_image_views_
  build_depth_image_views_
  build_framebuffers_

end Swapchain

namespace Pipeline

def method (f : Pipeline → Except Exn Unit × Pipeline) : M Unit := do
  let b ← get
  let x := f b.pipeline_
  set { b with pipeline_ := x.2 }
  check x.1

/-- `clear_` comes first. -/
def rebuild : M Unit := do
  destroy .pipeline
  destroy .pipelineLayout
  method (rebuild_pipeline V)

/-- A shader that could be loaded replaces the one the stage had. -/
def setShader (stage : ShaderStage) (shader : String) : M Unit := do
  let newShader ← loadShader shader
  match newShader with
  | .ok s => if s.valid then destroy (.shaderModule stage)
  | .error _ => pure ()
  method (set_shader stage newShader)

end Pipeline

namespace Frame

def wait (frame : ℕ) : M Bool := do
  let result ← waitForFences frame
  raii [.eSuccess, .eTimeout] result
  check (validate_vk_return "waitForFences" result)
  if result = .eSuboptimalKHR || result = .eErrorOutOfDateKHR || result = .eTimeout then
    return false
  else
    return true

def present_ (frame : ℕ) (imageIdx : UInt32) : M Unit := do
  let result ← queuePresentKHR frame imageIdx
  check (validate_vk_return "presentKHR" result)

def recordBuff_ (frame : ℕ) (idx : UInt32) : M Unit := do
  beginCommandBuffer frame idx
  Swapchain.framebuffer idx
  recordRenderPass frame idx

def submit_ (frame : ℕ) : M Unit := submit frame

/-- Every other result, an error too, is taken for a success. -/
def render (frame : ℕ) : M Bool := do
  resetCommandBuffer frame
  modify fun b => { b with pipeline_ := b.pipeline_.update_dynamic_state b.swapchain_.dimensions }
  let (nextImgResult, imageIdx) ← acquireNextImageKHR frame
  if nextImgResult = .eTimeout || nextImgResult = .eSuboptimalKHR ||
      nextImgResult = .eErrorOutOfDateKHR then
    return false
  else
    resetFences frame
    recordBuff_ frame imageIdx
    submit_ frame
    present_ frame imageIdx
    return true

end Frame

namespace VulkanBackend

def wait_for_idle_ : M Unit := waitIdle

def do_resize_ : M Unit := do
  wait_for_idle_
  Swapchain.reset V

def handle_resize : M Unit := do
  let windowDims ← dimensions
  if windowDims.1 ≤ 0 ∨ windowDims.2 ≤ 0 then
    modify fun b => { b with shouldRender_ := false }
  else
    modify fun b => { b with shouldRender_ := true, needsResizing_ := true }

/-- Resizes first if the frame's work has not completed in time or the window has changed. -/
def render_current (frame : ℕ) : M Unit := do
  let waited ← Frame.wait frame
  let b ← get
  if !waited || b.needsResizing_ then
    do_resize_ V
    modify fun b => { b with needsResizing_ := false }
  let rendered ← Frame.render frame
  if !rendered then
    modify fun b => { b with needsResizing_ := true }
  modify fun b => { b with frameIdx_ := (b.frameIdx_ + 1) % NUM_FRAMES_IN_FLIGHT }

def render_frame : M Unit := do
  let b ← get
  if b.pipeline_.dirty then
    wait_for_idle_
    Pipeline.rebuild V
  let b ← get
  if b.frameIdx_ < NUM_FRAMES_IN_FLIGHT then
    if b.shouldRender_ then
      render_current V b.frameIdx_
  else
    throw .out_of_range

def set_vertex_shader (shader : String) : M Unit := Pipeline.setShader .VERTEX shader

end VulkanBackend

/-- The methods of `IGraphicsBackend`. -/
inductive Call where
  | render_frame
  | handle_resize
  | set_vertex_shader (shader : String)
  deriving DecidableEq, Repr

def Call.run : Call → M Unit
  | render_frame => VulkanBackend.render_frame V
  | handle_resize => VulkanBackend.handle_resize
  | set_vertex_shader shader => VulkanBackend.set_vertex_shader shader

/-! ### Runs -/

abbrev Renderer := Client Op Op.Ans World VulkanBackend Exn

abbrev Act := Client.Act Op Op.Ans World.Change Call

/-- One step of the backend, the GPU or the window. -/
def Renderer.step : Act → Renderer → Option Renderer :=
  Client.step World.service (Call.run V) fun w => { w with acquired := [] }

def Renderer.Step (t : Renderer) (a : Act) (u : Renderer) : Prop := Renderer.step V a t = some u

/-- What the constructor leaves: the fences have been created signaled, and the swapchain has been
reset. -/
def Renderer.constructed (window : UInt32 × UInt32) (swapchain_ : Swapchain)
    (pipeline_ : Pipeline) : Renderer where
  world :=
    { window := window
      fence := fun _ => true
      pending := []
      presentSemaphore := fun _ => .unsignaled
      renderSemaphore := fun _ => .unsignaled
      cmdBuff := fun _ => none
      images := swapchain_.framebuffers_
      acquired := [] }
  task := .ret (.ok (),
    { swapchain_ := swapchain_
      pipeline_ := pipeline_
      frameIdx_ := 0
      needsResizing_ := false
      shouldRender_ := true })

end Omulator.Vk
