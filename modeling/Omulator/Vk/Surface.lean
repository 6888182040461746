import Omulator.Lib.Script
import Omulator.Vk.Pipeline
import Mathlib.Data.Finset.Insert
import Mathlib.Data.Finset.Erase

/-!
# What a Swapchain owns (`src/vkmisc/Swapchain.cpp`, `src/vkmisc/Allocator.cpp`)

The handles that the constructor, `reset` and the destructor create and destroy, one by one, when
any call may fail. An object is known by the number of its creation. What `vkb` and the create
infos say beyond the sizes is left out, and memory for the vectors does not run out.
-/

namespace Omulator.Surface
open Lib Routine
open Vk (Result Exn vk_fatal validate_vk_return)

inductive Object where
  | swapchain (n : ℕ)
  | renderPass (n : ℕ)
  | imageView (n : ℕ)
  | framebuffer (n : ℕ)
  /-- the image and its allocation -/
  | depthImage (n : ℕ)
  deriving DecidableEq, Repr

inductive Image where
  | null
  /-- one of those of a swapchain -/
  | presentable (swapchain i : ℕ)
  | depth (n : ℕ)
  deriving DecidableEq, Repr

inductive Op where
  | dimensions
  /-- `vkb::SwapchainBuilder::build` -/
  | buildSwapchain (width height : UInt32)
  /-- as far as how many they are -/
  | getImages (swapchain : Option ℕ)
  | createRenderPass
  | createImageView (image : Image)
  | createFramebuffer (renderPass : Option ℕ) (imageView : ℕ) (depthImageView : Option ℕ)
    (width height : UInt32)
  | vmaCreateImage (width height : UInt32)
  | vmaDestroyImage (n : ℕ)
  /-- `vkDestroySwapchainKHR` and its like -/
  | destroy (o : Object)
  deriving DecidableEq

abbrev Op.Ans : Op → Type
  | .dimensions => UInt32 × UInt32
  | .buildSwapchain _ _ => Except String ℕ
  | .getImages _ | .createRenderPass | .createImageView _ | .createFramebuffer _ _ _ _ _
  | .vmaCreateImage _ _ => Except Result ℕ
  | .vmaDestroyImage _ | .destroy _ => Unit

structure World where
  /-- the number of the next object -/
  next : ℕ := 0
  live : Finset Object := ∅
  imageOf : ℕ → Image := fun _ => .null
  extentOf : ℕ → UInt32 × UInt32 := fun _ => (0, 0)
  /-- history: the last `vmaCreateImage` has made an image -/
  made : Bool := false

namespace World

def create (w : World) (o : Object) : World :=
  { w with next := w.next + 1, live := insert o w.live }

def made? {ε : Type} (w : World) (x : Except ε ℕ) (o : ℕ → Object) (f : World → World) :
    Option World :=
  match x with
  | .ok n => if n = w.next then some (f (w.create (o n))) else none
  | .error _ => some w

def answer : (op : Op) → op.Ans → World → Option World
  | .dimensions, _, w | .getImages _, _, w => some w
  | .buildSwapchain _ _, x, w => w.made? x .swapchain id
  | .createRenderPass, x, w => w.made? x .renderPass id
  | .createImageView image, x, w => w.made? x .imageView fun w' =>
    { w' with imageOf := Function.update w.imageOf w.next image }
  | .createFramebuffer _ _ _ _ _, x, w => w.made? x .framebuffer id
  | .vmaCreateImage width height, x, w =>
    { w with made := false }.made? x .depthImage fun w' =>
      { w' with extentOf := Function.update w.extentOf w.next (width, height), made := true }
  | .vmaDestroyImage n, _, w => some { w with live := w.live.erase (.depthImage n) }
  | .destroy o, _, w => some { w with live := w.live.erase o }

def service : Service Op Op.Ans Empty World where
  answer := answer
  drift d _ := nomatch d

end World

def Image.Live (w : World) : Image → Prop
  | .null => False
  | .presentable sw _ => .swapchain sw ∈ w.live
  | .depth n => .depthImage n ∈ w.live

def Object.num : Object → ℕ
  | .swapchain n | .renderPass n | .imageView n | .framebuffer n | .depthImage n => n

/-- What is destroyed is there, and what is made is made of what is there; the depth image has the
size of the framebuffer. -/
def Fine : Op → World → Prop
  | .dimensions, _ | .buildSwapchain _ _, _ | .createRenderPass, _ | .vmaCreateImage _ _, _ => True
  | .getImages sw, w => ∃ n, sw = some n ∧ .swapchain n ∈ w.live
  | .createImageView image, w => image.Live w
  | .createFramebuffer rp v dv width height, w => ∃ r d n, rp = some r ∧ dv = some d ∧
    .renderPass r ∈ w.live ∧ .imageView v ∈ w.live ∧ .imageView d ∈ w.live ∧
    (w.imageOf v).Live w ∧ w.imageOf d = .depth n ∧ .depthImage n ∈ w.live ∧
    w.extentOf n = (width, height)
  | .vmaDestroyImage n, w => .depthImage n ∈ w.live
  | .destroy o, w => o ∈ w.live

/-- Of the object, the members that change; `none` is the null handle. -/
structure Swapchain where
  depthImage_ : Option ℕ := none
  depthImageView_ : Option ℕ := none
  framebuffers_ : List ℕ := []
  imageViews_ : List ℕ := []
  renderPass_ : Option ℕ := none
  swapchain_ : Option ℕ := none
  surfaceWidth : UInt32 := 0
  surfaceHeight : UInt32 := 0

inductive Stage where
  | unborn
  | alive
  /-- the constructor has thrown -/
  | stillborn
  | destroyed
  deriving DecidableEq, Repr

structure Storage where
  stage : Stage := .unborn
  this : Swapchain := {}

abbrev M := Routine Op Op.Ans Storage Exn

-- The type's name as `TypeString` gives it.
variable (swapchainReturn : String)

namespace Swapchain

def update (f : Swapchain → Swapchain) : M Unit := modify fun s => { s with this := f s.this }

/-- An exception for an error that `vk::raii` gets. -/
def raii (x : Except Result ℕ) : M ℕ :=
  match x with
  | .ok n => pure n
  | .error r => throw (.system_error r)

def destroyAll (os : List Object) : M Unit := os.forM fun o => ask (Op.destroy o)

def clear_ : M Unit := do
  destroyAll ((← get).this.framebuffers_.map .framebuffer)
  update fun s => { s with framebuffers_ := [] }
  destroyAll ((← get).this.imageViews_.map .imageView)
  update fun s => { s with imageViews_ := [] }
  destroyAll ((← get).this.swapchain_.toList.map .swapchain)
  update fun s => { s with swapchain_ := none }

/-- An assignment to a member destroys what it held. -/
def build_swapchain_ : M Unit := do
  let dims ← ask Op.dimensions
  update fun s => { s with surfaceWidth := dims.1, surfaceHeight := dims.2 }
  match ← ask (Op.buildSwapchain dims.1 dims.2) with
  | .error reason =>
    throw (vk_fatal ("vk-bootstrap return failure for type " ++ swapchainReturn ++
      "; reason: " ++ reason))
  | .ok n =>
    let old := (← get).this.swapchain_
    update fun s => { s with swapchain_ := some n }
    destroyAll (old.toList.map .swapchain)

def create_renderpass_ : M Unit := do
  let n ← raii (← ask Op.createRenderPass)
  let old := (← get).this.renderPass_
  update fun s => { s with renderPass_ := some n }
  destroyAll (old.toList.map .renderPass)

def build_image_view (swapchain : Option ℕ) (i : ℕ) : M Unit := do
  let image := match swapchain with
    | some sw => .presentable sw i
    | none => .null
  let n ← raii (← ask (Op.createImageView image))
  update fun s => { s with imageViews_ := s.imageViews_ ++ [n] }

def build_image_views_ : M Unit := do
  let sw := (← get).this.swapchain_
  let count ← raii (← ask (Op.getImages sw))
  (List.range count).forM fun i => build_image_view sw i

/-- `Allocator::alloc`; without an exception, a failure leaves null handles. -/
def alloc (width height : UInt32) : M (Option ℕ) := do
  match ← ask (Op.vmaCreateImage width height) with
  | .ok n => pure (some n)
  | .error r =>
    match validate_vk_return "vmaCreateImage" r with
    | .error e => throw e
    | .ok _ => pure none

/-- `Allocator::free`, unless the allocation is null. -/
def free : M Unit := do
  match (← get).this.depthImage_ with
  | some n => ask (Op.vmaDestroyImage n)
  | none => pure ()

def build_depth_image_views_ : M Unit := do
  free
  let s := (← get).this
  let image ← alloc s.surfaceWidth s.surfaceHeight
  update fun s => { s with depthImage_ := image }
  let n ← raii (← ask (Op.createImageView (match image with
    | some n => .depth n
    | none => .null)))
  let old := (← get).this.depthImageView_
  update fun s => { s with depthImageView_ := some n }
  destroyAll (old.toList.map .imageView)

def build_framebuffer (imageView : ℕ) : M Unit := do
  let s := (← get).this
  let n ← raii (← ask (Op.createFramebuffer s.renderPass_ imageView s.depthImageView_ s.surfaceWidth
    s.surfaceHeight))
  update fun s => { s with framebuffers_ := s.framebuffers_ ++ [n] }

def build_framebuffers_ : M Unit := do
  (← get).this.imageViews_.forM build_framebuffer

def reset : M Unit := do
  clear_
  build_swapchain_ swapchainReturn
  build_image_views_
  build_depth_image_views_
  build_framebuffers_

/-- The members are destroyed in the reverse of the order they are declared in. -/
def destroyMembers : M Unit := do
  let s := (← get).this
  destroyAll (s.swapchain_.toList.map .swapchain)
  destroyAll (s.renderPass_.toList.map .renderPass)
  destroyAll (s.imageViews_.map .imageView)
  destroyAll (s.framebuffers_.map .framebuffer)
  destroyAll (s.depthImageView_.toList.map .imageView)

def setStage (stage : Stage) : M Unit := modify fun s => { s with stage := stage }

/-- An exception destroys the members, and there is no object. -/
def construct : M Unit := do
  try
    build_swapchain_ swapchainReturn
    create_renderpass_
    build_image_views_
    build_depth_image_views_
    build_framebuffers_
  catch e =>
    destroyMembers
    setStage .stillborn
    throw e
  setStage .alive

def destruct : M Unit := do
  free
  destroyMembers
  setStage .destroyed

end Swapchain

inductive Call where
  | construct
  | reset
  | destruct
  deriving DecidableEq

/-- The object is constructed once, and used as long as it is there. -/
def Call.allowed : Call → Stage → Bool
  | .construct, stage => stage = .unborn
  | .reset, stage | .destruct, stage => stage = .alive

def Call.body : Call → M Unit
  | .construct => Swapchain.construct swapchainReturn
  | .reset => Swapchain.reset swapchainReturn
  | .destruct => Swapchain.destruct

/-- A call that is not allowed is not made. -/
def Call.run (c : Call) : M Unit := do
  if c.allowed (← get).stage then c.body swapchainReturn else pure ()

abbrev Program := Client Op Op.Ans World Storage Exn

abbrev Act := Client.Act Op Op.Ans Empty Call

def Program.step : Act → Program → Option Program :=
  Client.step World.service (Call.run swapchainReturn) id

def Program.Step (t : Program) (a : Act) (u : Program) : Prop :=
  Program.step swapchainReturn a t = some u

def Program.start : Program := ⟨{}, .ret (.ok (), {})⟩

/-- The results `vmaCreateImage` fails with: they are none of those that `validate_vk_return` lets
pass. -/
def Documented : (op : Op) → op.Ans → Prop
  | .vmaCreateImage _ _, .error r => ∃ e, validate_vk_return "vmaCreateImage" r = .error e
  | .dimensions, _ | .buildSwapchain _ _, _ | .getImages _, _ | .createRenderPass, _
  | .createImageView _, _ | .createFramebuffer _ _ _ _ _, _ | .vmaCreateImage _ _, .ok _
  | .vmaDestroyImage _, _ | .destroy _, _ => True

end Omulator.Surface
