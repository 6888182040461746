import Omulator.Lib.Transition
import Mathlib.Data.UInt

/-!
# Pipeline (`src/vkmisc/Pipeline.cpp`, `src/vkmisc/vkmisc.cpp`, `src/vkmisc/Shader.cpp`)

A method gives a result or an exception together with the members it leaves. A Vulkan object is
what it was created from. The create infos that the constructor fills in once and nothing changes
afterwards are left out, and so is what is logged.
-/

namespace Omulator.Vk

open Lib

/-- `vk::Result`. -/
inductive Result where
  | eSuccess | eNotReady | eTimeout | eEventSet | eEventReset | eIncomplete
  | eErrorOutOfHostMemory | eErrorOutOfDeviceMemory | eErrorInitializationFailed
  | eErrorDeviceLost | eErrorMemoryMapFailed | eErrorLayerNotPresent
  | eErrorExtensionNotPresent | eErrorFeatureNotPresent | eErrorIncompatibleDriver
  | eErrorTooManyObjects | eErrorFormatNotSupported | eErrorSurfaceLostKHR
  | eErrorNativeWindowInUseKHR | eSuboptimalKHR | eErrorOutOfDateKHR
  | eErrorIncompatibleDisplayKHR | eErrorValidationFailedEXT | eErrorInvalidShaderNV
  /-- any other code -/
  | other (code : Int)
  deriving DecidableEq, Repr

def vk_error_string : Result → String
  | .eNotReady => "NOT_READY"
  | .eTimeout => "TIMEOUT"
  | .eEventSet => "EVENT_SET"
  | .eEventReset => "EVENT_RESET"
  | .eIncomplete => "INCOMPLETE"
  | .eErrorOutOfHostMemory => "ERROR_OUT_OF_HOST_MEMORY"
  | .eErrorOutOfDeviceMemory => "ERROR_OUT_OF_DEVICE_MEMORY"
  | .eErrorInitializationFailed => "ERROR_INITIALIZATION_FAILED"
  | .eErrorDeviceLost => "ERROR_DEVICE_LOST"
  | .eErrorMemoryMapFailed => "ERROR_MEMORY_MAP_FAILED"
  | .eErrorLayerNotPresent => "ERROR_LAYER_NOT_PRESENT"
  | .eErrorExtensionNotPresent => "ERROR_EXTENSION_NOT_PRESENT"
  | .eErrorFeatureNotPresent => "ERROR_FEATURE_NOT_PRESENT"
  | .eErrorIncompatibleDriver => "ERROR_INCOMPATIBLE_DRIVER"
  | .eErrorTooManyObjects => "ERROR_TOO_MANY_OBJECTS"
  | .eErrorFormatNotSupported => "ERROR_FORMAT_NOT_SUPPORTED"
  | .eErrorSurfaceLostKHR => "ERROR_SURFACE_LOST_KHR"
  | .eErrorNativeWindowInUseKHR => "ERROR_NATIVE_WINDOW_IN_USE_KHR"
  | .eSuboptimalKHR => "SUBOPTIMAL_KHR"
  | .eErrorOutOfDateKHR => "ERROR_OUT_OF_DATE_KHR"
  | .eErrorIncompatibleDisplayKHR => "ERROR_INCOMPATIBLE_DISPLAY_KHR"
  | .eErrorValidationFailedEXT => "ERROR_VALIDATION_FAILED_EXT"
  | .eErrorInvalidShaderNV => "ERROR_INVALID_SHADER_NV"
  | .eSuccess | .other _ => "UNKNOWN_ERROR"

inductive Exn where
  /-- `vk::SystemError`, thrown by a call of `vk::raii` -/
  | system_error (result : Result)
  | runtime_error (what : String)
  /-- thrown by `std::vector::at` -/
  | out_of_range
  deriving DecidableEq, Repr

def vk_fatal (msg : String) : Exn := .runtime_error ("Fatal Vulkan error: " ++ msg)

def validate_vk_return (op : String) (result : Result) : Except Exn Unit :=
  if result = .eSuboptimalKHR || result = .eErrorOutOfDateKHR then .ok ()
  else if result = .eTimeout then .ok ()
  else if result ≠ .eSuccess then
    .error (vk_fatal ("Fatal vulkan error in op '" ++ op ++ "': " ++ vk_error_string result))
  else .ok ()

/-! ### Create infos and what is created from them -/

structure VertexInputBindingDescription where
  binding : UInt32
  stride : UInt32
  inputRate : UInt32
  deriving DecidableEq, Repr

structure VertexInputAttributeDescription where
  location : UInt32
  binding : UInt32
  format : UInt32
  offset : UInt32
  deriving DecidableEq, Repr

structure PushConstantRange where
  stageFlags : UInt32
  offset : UInt32
  size : UInt32
  deriving DecidableEq, Repr

structure ShaderModule where
  handle : ℕ
  deriving DecidableEq, Repr

/-- `Shader`: the module exists exactly when `valid_` is set, that is when the file could be
opened; when the module cannot be created the constructor throws. -/
structure Shader where
  shaderModule_ : Option ShaderModule
  deriving DecidableEq, Repr

def Shader.valid (s : Shader) : Bool := s.shaderModule_.isSome

/-- A count and a pointer to the elements, which is null or the `data()` of the member that
holds them. -/
structure Span where
  count : UInt32 := 0
  data : Bool := false
  deriving DecidableEq, Repr

/-- What Vulkan reads through it. -/
def Span.read {α : Type} (s : Span) (v : List α) : List α :=
  if s.data then v.take s.count.toNat else []

/-- `static_cast<U32>(v.size())` and `v.data()`. -/
def Span.of {α : Type} (v : List α) : Span := ⟨UInt32.ofNat v.length, true⟩

theorem Span.read_of {α : Type} {v : List α} (h : v.length < 2 ^ 32) : (Span.of v).read v = v := by
  have hn : (UInt32.ofNat v.length).toNat = v.length := UInt32.toNat_ofNat_of_lt h
  simp [of, read, hn]

structure VkPipelineLayout where
  pushConstantRanges : List PushConstantRange
  deriving DecidableEq, Repr

structure VkPipeline where
  vertModule : Option ShaderModule
  fragModule : Option ShaderModule
  vertexBindings : List VertexInputBindingDescription
  vertexAttributes : List VertexInputAttributeDescription
  layout : VkPipelineLayout
  deriving DecidableEq, Repr

/-- Whether Vulkan creates an object depends on nothing but its create info. -/
structure Driver where
  createPipelineLayout : VkPipelineLayout → Result
  createPipeline : VkPipeline → Result
  /-- `util::TypeString` of what `SwapchainBuilder::build` returns -/
  swapchainReturn : String

inductive ShaderStage where
  | VERTEX | FRAGMENT
  deriving DecidableEq, Repr

structure Pipeline where
  pipeline_ : Option VkPipeline := none
  pipelineLayout_ : Option VkPipelineLayout := none
  vertexAttributes_ : List VertexInputAttributeDescription := []
  vertexBindings_ : List VertexInputBindingDescription := []
  /-- `fragShaderInfo_.module`, and `vertShaderInfo_.module` below -/
  fragShaderInfo_ : Option ShaderModule := none
  /-- `pushConstantRangeCount` and `pPushConstantRanges` -/
  pipelineLayoutInfo_ : Span := {}
  vertShaderInfo_ : Option ShaderModule := none
  /-- the two counts and pointers of `vertexInputInfo_` -/
  vertexInputBindings : Span := {}
  vertexInputAttributes : Span := {}
  /-- width and height of `viewport_` and of `scissor_.extent` -/
  viewport_ : UInt32 × UInt32 := (0, 0)
  scissor_ : UInt32 × UInt32 := (0, 0)
  fragmentShader_ : Option Shader := none
  vertexShader_ : Option Shader := none
  pushConstants_ : List PushConstantRange := []
  pipelineDirty_ : Bool := true
  deriving DecidableEq, Repr

namespace Pipeline

variable (V : Driver)

def dirty (p : Pipeline) : Bool := p.pipelineDirty_

def clear_ (p : Pipeline) : Pipeline := { p with pipeline_ := none, pipelineLayout_ := none }

def layoutInfo (p : Pipeline) : VkPipelineLayout := ⟨p.pipelineLayoutInfo_.read p.pushConstants_⟩

def createInfo (p : Pipeline) (layout : VkPipelineLayout) : VkPipeline where
  vertModule := p.vertShaderInfo_
  fragModule := p.fragShaderInfo_
  vertexBindings := p.vertexInputBindings.read p.vertexBindings_
  vertexAttributes := p.vertexInputAttributes.read p.vertexAttributes_
  layout := layout

def rebuild_pipeline (p : Pipeline) : Except Exn Unit × Pipeline :=
  let p := p.clear_
  let layout := p.layoutInfo
  let r := V.createPipelineLayout layout
  if r ≠ .eSuccess then (.error (.system_error r), p)
  else
    let p := { p with pipelineLayout_ := some layout }
    let pipelineCreateInfo := p.createInfo layout
    let r := V.createPipeline pipelineCreateInfo
    if r ≠ .eSuccess then (.error (.system_error r), p)
    else (.ok (), { p with pipeline_ := some pipelineCreateInfo, pipelineDirty_ := false })

/-- `newShader` is what constructing the `Shader` gives. -/
def set_shader (shaderStage : ShaderStage) (newShader : Except Exn Shader) (p : Pipeline) :
    Except Exn Unit × Pipeline :=
  match newShader with
  | .error e => (.error e, p)
  | .ok s =>
    let p :=
      if s.valid then
        match shaderStage with
        | .FRAGMENT => { p with fragmentShader_ := some s, fragShaderInfo_ := s.shaderModule_ }
        | .VERTEX => { p with vertexShader_ := some s, vertShaderInfo_ := s.shaderModule_ }
      else p
    (.ok (), { p with pipelineDirty_ := true })

/-- The pipeline is not marked dirty. -/
def set_vertex_binding_attrs (bindings : List VertexInputBindingDescription)
    (attrs : List VertexInputAttributeDescription) (p : Pipeline) : Pipeline :=
  { p with
    vertexBindings_ := bindings
    vertexAttributes_ := attrs
    vertexInputBindings := Span.of bindings
    vertexInputAttributes := Span.of attrs }

/-- `size` is `sizeof(T)`. Element 0 is created if it does not exist. -/
def set_push_constant (size shaderStage : UInt32) (p : Pipeline) : Pipeline :=
  let pushConstants := ⟨shaderStage, 0, size⟩ :: p.pushConstants_.tail
  { p with
    pushConstants_ := pushConstants
    pipelineLayoutInfo_ := Span.of pushConstants
    pipelineDirty_ := true }

/-- `dims` are those of the swapchain. -/
def update_dynamic_state (dims : UInt32 × UInt32) (p : Pipeline) : Pipeline :=
  { p with viewport_ := dims, scissor_ := dims }

def thenDo (x : Except Exn Unit × Pipeline) (f : Pipeline → Except Exn Unit × Pipeline) :
    Except Exn Unit × Pipeline :=
  match x.1 with
  | .ok _ => f x.2
  | .error _ => x

/-- The constructor, where `load` gives the shader of each file. -/
def construct (dims : UInt32 × UInt32) (load : String → Except Exn Shader) :
    Except Exn Unit × Pipeline :=
  thenDo (set_shader .VERTEX (load "triangle.vert.spv") (update_dynamic_state dims {})) fun p =>
    thenDo (p.set_shader .FRAGMENT (load "tri_mesh.frag.spv")) (rebuild_pipeline V)

inductive Op where
  | set_shader (shaderStage : ShaderStage) (newShader : Except Exn Shader)
  | set_vertex_binding_attrs (bindings : List VertexInputBindingDescription)
      (attrs : List VertexInputAttributeDescription)
  | set_push_constant (size shaderStage : UInt32)
  | update_dynamic_state (dims : UInt32 × UInt32)
  | rebuild_pipeline

/-- The members after the call, whether it returns or throws. -/
def Op.apply : Op → Pipeline → Pipeline
  | set_shader shaderStage newShader, p => (p.set_shader shaderStage newShader).2
  | set_vertex_binding_attrs bindings attrs, p => p.set_vertex_binding_attrs bindings attrs
  | set_push_constant size shaderStage, p => p.set_push_constant size shaderStage
  | update_dynamic_state dims, p => p.update_dynamic_state dims
  | rebuild_pipeline, p => (p.rebuild_pipeline V).2

def Step (p : Pipeline) (op : Op) (q : Pipeline) : Prop := op.apply V p = q

/-! ### What a clean pipeline is built from -/

/-- The pipeline and the layout were built from what is configured now. -/
def UpToDate (p : Pipeline) : Prop :=
  p.pipelineLayout_ = some ⟨p.pushConstants_⟩ ∧
    p.pipeline_ = some
      { vertModule := p.vertexShader_.bind (·.shaderModule_)
        fragModule := p.fragmentShader_.bind (·.shaderModule_)
        vertexBindings := p.vertexBindings_
        vertexAttributes := p.vertexAttributes_
        layout := ⟨p.pushConstants_⟩ }

instance (p : Pipeline) : Decidable p.UpToDate := inferInstanceAs (Decidable (_ ∧ _))

structure Described (p : Pipeline) : Prop where
  bindings : p.vertexInputBindings.read p.vertexBindings_ = p.vertexBindings_
  attributes : p.vertexInputAttributes.read p.vertexAttributes_ = p.vertexAttributes_
  constants : p.pipelineLayoutInfo_.read p.pushConstants_ = p.pushConstants_
  single : p.pushConstants_.length ≤ 1
  vert : p.vertShaderInfo_ = p.vertexShader_.bind (·.shaderModule_)
  frag : p.fragShaderInfo_ = p.fragmentShader_.bind (·.shaderModule_)

/-- The objects exist, and Vulkan creates them whenever it is asked for them. -/
structure Built (p : Pipeline) : Prop where
  current : p.UpToDate
  layout : V.createPipelineLayout ⟨p.pushConstants_⟩ = .eSuccess
  pipeline : ∀ q, p.pipeline_ = some q → V.createPipeline q = .eSuccess

structure Coherent (p : Pipeline) : Prop where
  described : p.Described
  clean : p.dirty = false → p.Built V

variable {V}

theorem Described.createInfo {p : Pipeline} (h : p.Described) :
    p.createInfo ⟨p.pushConstants_⟩ =
      { vertModule := p.vertexShader_.bind (·.shaderModule_)
        fragModule := p.fragmentShader_.bind (·.shaderModule_)
        vertexBindings := p.vertexBindings_
        vertexAttributes := p.vertexAttributes_
        layout := ⟨p.pushConstants_⟩ } := by
  rw [Pipeline.createInfo, h.bindings, h.attributes, h.vert, h.frag]

theorem Described.layoutInfo {p : Pipeline} (h : p.Described) :
    p.layoutInfo = ⟨p.pushConstants_⟩ := by rw [Pipeline.layoutInfo, h.constants]

/-- Rebuilding succeeds and cleans the pipeline, or throws and leaves it as dirty as it was; from a
clean pipeline it succeeds. -/
theorem Coherent.rebuild_pipeline {p : Pipeline} (h : p.Described)
    (hc : p.dirty = false → p.Built V) : (p.rebuild_pipeline V).2.Coherent V := by
  have hl : p.clear_.layoutInfo = ⟨p.pushConstants_⟩ := h.layoutInfo
  have hi : ∀ l, ({ p.clear_ with pipelineLayout_ := l } : Pipeline).createInfo ⟨p.pushConstants_⟩ =
      p.createInfo ⟨p.pushConstants_⟩ := fun _ => rfl
  unfold Pipeline.rebuild_pipeline
  simp only [hl, hi]
  split
  · rename_i hr
    exact ⟨⟨h.1, h.2, h.3, h.4, h.5, h.6⟩, fun hd => absurd (hc hd).layout hr⟩
  · rename_i hr
    split
    · rename_i hp
      refine ⟨⟨h.1, h.2, h.3, h.4, h.5, h.6⟩, fun hd => ?_⟩
      have hb := hc hd
      exact absurd (hb.pipeline _ (h.createInfo ▸ hb.current.2)) hp
    · rename_i hp
      refine ⟨⟨h.1, h.2, h.3, h.4, h.5, h.6⟩, fun _ => ⟨⟨rfl, ?_⟩, not_not.mp hr, ?_⟩⟩
      · exact congrArg some h.createInfo
      · intro q hq
        cases hq
        exact not_not.mp hp

theorem Described.set_shader {p : Pipeline} (h : p.Described) (stage : ShaderStage) (s : Shader) :
    (p.set_shader stage (.ok s)).2.Described := by
  unfold Pipeline.set_shader
  by_cases hv : s.valid
  · cases stage with
    | VERTEX =>
      simp only [hv, if_true]
      exact ⟨h.1, h.2, h.3, h.4, rfl, h.6⟩
    | FRAGMENT =>
      simp only [hv, if_true]
      exact ⟨h.1, h.2, h.3, h.4, h.5, rfl⟩
  · simp only [hv]
    exact ⟨h.1, h.2, h.3, h.4, h.5, h.6⟩

theorem Coherent.set_shader {p : Pipeline} (h : p.Coherent V) (stage : ShaderStage)
    (newShader : Except Exn Shader) : (p.set_shader stage newShader).2.Coherent V := by
  cases newShader with
  | error e => exact h
  | ok s =>
    refine ⟨h.described.set_shader stage s, fun hd => ?_⟩
    cases hd

theorem Described.set_push_constant {p : Pipeline} (h : p.Described) (size stage : UInt32) :
    (p.set_push_constant size stage).Described := by
  have hl : (⟨stage, 0, size⟩ :: p.pushConstants_.tail : List PushConstantRange).length ≤ 1 := by
    have := h.single
    simp only [List.length_cons, List.length_tail]
    omega
  exact ⟨h.1, h.2, Span.read_of (by omega), hl, h.5, h.6⟩

theorem thenDo_keeps {P : Pipeline → Prop} {x : Except Exn Unit × Pipeline}
    {f : Pipeline → Except Exn Unit × Pipeline} (hx : P x.2) (hf : ∀ p, P p → P (f p).2) :
    P (thenDo x f).2 := by
  obtain ⟨r, p⟩ := x
  cases r with
  | error e => exact hx
  | ok u => exact hf p hx

theorem construct_coherent (dims : UInt32 × UInt32) (load : String → Except Exn Shader) :
    (construct V dims load).2.Coherent V := by
  have h₀ : (update_dynamic_state dims {}).Coherent V :=
    ⟨⟨rfl, rfl, rfl, Nat.zero_le _, rfl, rfl⟩, fun hd => by cases hd⟩
  refine thenDo_keeps (h₀.set_shader .VERTEX _) fun p hp => ?_
  exact thenDo_keeps (hp.set_shader .FRAGMENT _) fun q hq =>
    Coherent.rebuild_pipeline hq.described hq.clean

/-- New vertex bindings and attributes come while the pipeline is dirty, or are those it has. -/
def Announced (p : Pipeline) : Op → Prop
  | .set_vertex_binding_attrs bindings attrs =>
    bindings.length < 2 ^ 32 ∧ attrs.length < 2 ^ 32 ∧
      (p.dirty = true ∨ bindings = p.vertexBindings_ ∧ attrs = p.vertexAttributes_)
  | .set_shader _ _ | .set_push_constant _ _ | .update_dynamic_state _ | .rebuild_pipeline => True

theorem Coherent.apply {p : Pipeline} (h : p.Coherent V) {op : Op} (ha : p.Announced op) :
    (op.apply V p).Coherent V := by
  cases op with
  | set_shader stage newShader => exact h.set_shader stage newShader
  | set_vertex_binding_attrs bindings attrs =>
    obtain ⟨hb, hat, hd⟩ := ha
    have hk := h.described
    refine ⟨⟨Span.read_of hb, Span.read_of hat, hk.3, hk.4, hk.5, hk.6⟩, fun hc => ?_⟩
    have hcl : p.dirty = false := hc
    rcases hd with hd | ⟨rfl, rfl⟩
    · rw [hcl] at hd
      cases hd
    · have hbu := h.clean hcl
      exact ⟨hbu.1, hbu.2, hbu.3⟩
  | set_push_constant size stage =>
    refine ⟨h.described.set_push_constant size stage, fun hd => ?_⟩
    cases hd
  | update_dynamic_state dims =>
    have hk := h.described
    refine ⟨⟨hk.1, hk.2, hk.3, hk.4, hk.5, hk.6⟩, fun hd => ?_⟩
    have hbu := h.clean hd
    exact ⟨hbu.1, hbu.2, hbu.3⟩
  | rebuild_pipeline => exact Coherent.rebuild_pipeline h.described h.clean

/-- Whatever is called on a pipeline that has been constructed, while it is clean its objects are
those of its configuration, if every change of the vertex bindings and attributes is announced. -/
theorem clean_up_to_date {dims : UInt32 × UInt32} {load : String → Except Exn Shader}
    {p q : Pipeline} (hp : construct V dims load = (.ok (), p))
    (h : RunUnder (Step V) Announced p q) (hq : q.dirty = false) :
    q.UpToDate := by
  have h₀ : p.Coherent V := by
    have hc := construct_coherent (V := V) dims load
    rwa [hp] at hc
  have hI : q.Coherent V := RunUnder.invariant (fun p => p.Coherent V) h h₀ fun t op u ht ha hu =>
    hu ▸ ht.apply ha
  exact (hI.clean hq).current

def sampleDriver : Driver := ⟨fun _ => .eSuccess, fun _ => .eSuccess, "vkb::Result<vkb::Swapchain>"⟩

def sampleLoad (shader : String) : Except Exn Shader :=
  .ok ⟨some ⟨if shader = "triangle.vert.spv" then 1 else 2⟩⟩

def sampleBindings : List VertexInputBindingDescription := [⟨0, 12, 0⟩]

def sampleAttributes : List VertexInputAttributeDescription := [⟨0, 0, 106, 0⟩]

def sample : Pipeline := (construct sampleDriver (1280, 720) sampleLoad).2

/-- Constants first, which marks the pipeline dirty; then the bindings; then a rebuild. -/
theorem clean_up_to_date_mesh :
    (((sample.set_push_constant 80 1).set_vertex_binding_attrs sampleBindings
      sampleAttributes).rebuild_pipeline sampleDriver).2.UpToDate := by
  have h₁ : RunUnder (Step sampleDriver) Announced sample (sample.set_push_constant 80 1) :=
    .next (a := .set_push_constant 80 1) .start trivial rfl
  have ha : (sample.set_push_constant 80 1).Announced
      (.set_vertex_binding_attrs sampleBindings sampleAttributes) :=
    ⟨by decide, by decide, Or.inl rfl⟩
  have h₂ := RunUnder.next h₁ ha rfl
  have h₃ := RunUnder.next (a := Op.rebuild_pipeline) h₂ trivial rfl
  have hc : construct sampleDriver (1280, 720) sampleLoad = (.ok (), sample) := by decide
  exact clean_up_to_date hc h₃ (by decide)

/-- Bindings set on the clean pipeline leave it clean, with objects built from none. -/
theorem stale_pipeline_stays_clean :
    ¬ ∀ (V : Driver) (dims : UInt32 × UInt32) (load : String → Except Exn Shader)
      (p q : Pipeline), construct V dims load = (.ok (), p) →
        Run (Step V) p q → q.dirty = false → q.UpToDate := by
  intro h
  have hrun : Run (Step sampleDriver) sample
      (sample.set_vertex_binding_attrs sampleBindings sampleAttributes) :=
    Run.next' (a := .set_vertex_binding_attrs sampleBindings sampleAttributes) .start rfl
  have hq := h sampleDriver (1280, 720) sampleLoad sample _ (by decide) hrun (by decide)
  exact absurd hq (by decide)

end Pipeline
end Omulator.Vk
