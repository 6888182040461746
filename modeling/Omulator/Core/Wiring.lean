import Omulator.Di.Built

/-!
# The recipes of the application (`src/di/injector_rules.cpp`, `src/vkmisc/Initializer.cpp`)

What the application puts into its injector: the interfaces it binds, and for every other
type the requests that its recipe and its constructor make. Between any two requests a
recipe runs code that may throw: drivers, the window system, third-party libraries.
-/

namespace Omulator.Wiring
open Omulator.Lib Omulator.Di

inductive Component where
  | Injector | ILogger | SpdlogLogger | PropertyMap | CLIParser | MailboxRouter
  | MessageQueueFactory | IWindow | SystemWindow | NullWindow | InputHandler | Interpreter
  | CoreGraphicsEngine | CLIInput | IClock | Clock
  /-- `vkb::` -/
  | SystemInfo | VkbInstance | VkbDevice
  /-- `vk::raii::` -/
  | Context | Instance | DebugUtilsMessengerEXT | SurfaceKHR | PhysicalDevice | Device
  | CommandPool | CommandBuffers | Fence | Semaphore
  | DeviceQueues_t | Allocator | Swapchain | Pipeline | VulkanBackend | IGraphicsBackend
  deriving DecidableEq, Repr

def Component.isInterface : Component → Bool
  | .ILogger | .IWindow | .IClock | .IGraphicsBackend => true
  | _ => false

/-- A type that no rule is added for, and that has a default constructor. -/
def Component.isPlain : Component → Bool
  | .SpdlogLogger | .NullWindow | .Clock | .Context => true
  | _ => false

/-- What a recipe asks its injector for. -/
structure Request where
  kind : Kind
  type : Component
  deriving DecidableEq, Repr

abbrev ref (T : Component) : Request := ⟨.get, T⟩
abbrev value (T : Component) : Request := ⟨.creat, T⟩

/-- What the compiler knows of these types and decides about the program. -/
structure Build where
  ty : Types
  hash : Component → Hash_t
  hash_injective : Function.Injective hash
  hash_injector : hash .Injector = injectorHash
  abstract_iff : ∀ T, ty.is_abstract (hash T) = T.isInterface
  plain : ∀ T, T.isPlain = true → ty.default_initializable (hash T) = true
  NDEBUG : Bool
  /-- the order in which the arguments of a call are evaluated -/
  arguments : List Request → List Request
  arguments_perm : ∀ l, (arguments l).Perm l

/-- What the program meets when it is run. -/
structure Environment where
  HEADLESS : Bool
  /-- the value of the property for the recipe that begins at a given moment -/
  VKDEBUG : ℕ → Bool
  /-- what the recipe of a type throws, if it does, with `left` requests to go; the recipe
  began at the moment `start` -/
  throws : (T : Component) → (left start : ℕ) → Option ℕ

def NUM_FRAMES_IN_FLIGHT : ℕ := 3

section
variable (b : Build) (env : Environment)

/-- The recipe of `T`, which makes these requests in turn and passes on what they throw. -/
def asks (T : Component) (start : ℕ) : List Request → Prog
  | [] =>
    match env.throws T 0 start with
    | some n => .throw (.user n)
    | none => .new
  | r :: rs =>
    let k : Outcome → Prog := fun
      | .error e => .throw e
      | .ok _ => asks T start rs
    match env.throws T (rs.length + 1) start, r.kind with
    | some n, _ => .throw (.user n)
    | none, .get => .get (b.hash r.type) k
    | none, .creat => .creat (b.hash r.type) k

/-! ### `src/vkmisc/Initializer.cpp` -/

def command_buffers_recipe (_start : ℕ) : List Request := [ref .CommandPool, ref .Device]

def command_pool_recipe (_start : ℕ) : List Request := [ref .DeviceQueues_t, ref .Device]

def debug_utils_messenger_recipe (_start : ℕ) : List Request :=
  b.arguments [ref .Instance, ref .VkbInstance]

def device_recipe (_start : ℕ) : List Request :=
  b.arguments [ref .PhysicalDevice, ref .VkbDevice]

/-- The device is asked for once for each of the two `QUEUE_TYPES`. -/
def device_queues_recipe (_start : ℕ) : List Request :=
  [ref .ILogger, ref .VkbDevice] ++ List.replicate 2 (ref .Device)

def fence_recipe (_start : ℕ) : List Request := [ref .Device]

def instance_recipe (_start : ℕ) : List Request := b.arguments [ref .Context, ref .VkbInstance]

def physical_device_recipe (_start : ℕ) : List Request :=
  b.arguments [ref .Instance, ref .VkbDevice]

def semaphore_recipe (_start : ℕ) : List Request := [ref .Device]

def surface_recipe (_start : ℕ) : List Request := [ref .Instance, ref .IWindow]

def system_info_recipe (_start : ℕ) : List Request := [ref .ILogger]

/-- The messenger is there before the device; the assertion is compiled out with `NDEBUG`. -/
def vkb_device_recipe (start : ℕ) : List Request :=
  [ref .ILogger, ref .PropertyMap] ++
  (if env.VKDEBUG start then [ref .DebugUtilsMessengerEXT] else []) ++
  [ref .VkbInstance] ++ (if b.NDEBUG then [] else [ref .IWindow]) ++ [ref .SurfaceKHR]

def vkb_instance_recipe (_start : ℕ) : List Request :=
  [ref .ILogger, ref .PropertyMap, ref .SystemInfo]

/-! ### Constructors -/

/-- What the constructor of `T` itself asks the injector for that it was given. The ones of
`VulkanBackend` reset the swapchain and fill `frames_`. -/
def constructor : Component → List Request
  | .CoreGraphicsEngine =>
    b.arguments [ref .ILogger, ref .MailboxRouter] ++ [ref .ILogger, ref .IGraphicsBackend]
  | .Interpreter => b.arguments [ref .ILogger, ref .MailboxRouter] ++ [ref .ILogger]
  | .Swapchain => [ref .VkbDevice]
  | .VulkanBackend =>
    [ref .VkbDevice] ++ (List.replicate NUM_FRAMES_IN_FLIGHT ([ref .CommandBuffers] ++
      b.arguments [value .Fence, value .Semaphore, value .Semaphore])).flatten ++
    [ref .PropertyMap]
  | _ => []

/-! ### The rules -/

inductive Rule where
  | bindImpl (Interface Implementation : Component)
  /-- all dependencies of the application's rules are references -/
  | addCtorRecipe (T : Component) (Ts : List Component)
  | addRecipe (T : Component) (recipe : ℕ → List Request)

namespace Rule

def target : Rule → Component
  | .bindImpl T _ | .addCtorRecipe T _ | .addRecipe T _ => T

def requests : Rule → ℕ → List Request
  | .bindImpl _ Implementation, _ => [ref Implementation]
  | .addCtorRecipe T Ts, _ => b.arguments (Ts.map ref) ++ constructor b T
  | .addRecipe _ recipe, start => recipe start

def add : Rule → World → World
  | .bindImpl Interface Implementation =>
    World.bindImpl 0 (b.hash Interface) (b.hash Implementation)
  | .addCtorRecipe T Ts =>
    World.addRecipe 0 (b.hash T) fun start =>
      asks b env T start (b.arguments (Ts.map ref) ++ constructor b T)
  | .addRecipe T recipe =>
    World.addRecipe 0 (b.hash T) fun start => asks b env T start (recipe start)

def recipe : Rule → Recipe
  | .bindImpl _ Implementation => .bind (b.hash Implementation)
  | .addCtorRecipe T Ts =>
    .fn fun start => asks b env T start (b.arguments (Ts.map ref) ++ constructor b T)
  | .addRecipe T recipe => .fn fun start => asks b env T start (recipe start)

theorem add_eq (rule : Rule) (w : World) :
    rule.add b env w = w.insertRecipe 0 (b.hash rule.target) (rule.recipe b env) := by
  cases rule <;> rfl

theorem recipe_fn {rule : Rule} (h : ∀ impl, rule ≠ .bindImpl rule.target impl) :
    rule.recipe b env = .fn fun start => asks b env rule.target start (rule.requests b start) := by
  cases rule with
  | bindImpl T Implementation => exact absurd rfl (h Implementation)
  | addCtorRecipe T Ts => rfl
  | addRecipe T recipe => rfl

end Rule

def minimalRules : List Rule :=
  [.bindImpl .ILogger .SpdlogLogger,
    .addCtorRecipe .PropertyMap [.ILogger],
    .addCtorRecipe .CLIParser [.ILogger, .PropertyMap]]

def install_vk_initializer_rules : List Rule :=
  [.addRecipe .SystemInfo system_info_recipe,
    .addRecipe .VkbInstance vkb_instance_recipe,
    .addRecipe .Instance (instance_recipe b),
    .addRecipe .DebugUtilsMessengerEXT (debug_utils_messenger_recipe b),
    .addRecipe .SurfaceKHR surface_recipe,
    .addRecipe .VkbDevice (vkb_device_recipe b env),
    .addRecipe .PhysicalDevice (physical_device_recipe b),
    .addRecipe .Device (device_recipe b),
    .addRecipe .DeviceQueues_t device_queues_recipe,
    .addRecipe .CommandPool command_pool_recipe,
    .addRecipe .CommandBuffers command_buffers_recipe,
    .addRecipe .Fence fence_recipe,
    .addRecipe .Semaphore semaphore_recipe,
    .addCtorRecipe .Allocator [.ILogger, .Instance, .PhysicalDevice, .Device],
    .addCtorRecipe .Swapchain [.Injector, .ILogger, .IWindow, .Allocator, .Device],
    .addCtorRecipe .Pipeline [.ILogger, .Device, .Swapchain, .PropertyMap],
    .addCtorRecipe .VulkanBackend [.ILogger, .Injector, .IWindow, .Device, .Swapchain, .Pipeline,
      .DeviceQueues_t, .Allocator],
    .bindImpl .IGraphicsBackend .VulkanBackend]

/-- What `installDefaultRules` adds before it looks at the property `HEADLESS`. -/
def defaultRules : List Rule :=
  [.addCtorRecipe .MailboxRouter [.ILogger, .MessageQueueFactory],
    .addCtorRecipe .SystemWindow [.ILogger, .InputHandler],
    .addCtorRecipe .InputHandler [.MailboxRouter],
    .addCtorRecipe .Interpreter [.Injector],
    .addCtorRecipe .CoreGraphicsEngine [.Injector],
    .addCtorRecipe .CLIInput [.ILogger, .MailboxRouter]] ++
  install_vk_initializer_rules b env ++ [.bindImpl .IClock .Clock]

/-- What it adds afterwards. -/
def windowRules : List Rule :=
  [.bindImpl .IWindow (if env.HEADLESS then .NullWindow else .SystemWindow),
    .addRecipe .MessageQueueFactory fun _ => [ref .ILogger]]

def addAll (rules : List Rule) (w : World) : World := rules.foldl (fun w rule => rule.add b env w) w

def installMinimalRules (w : World) : World := addAll b env minimalRules w

def installDefaultRules (w : World) : Outcome × World :=
  match (addAll b env (defaultRules b env) w).call b.ty ⟨.get, 0, b.hash .PropertyMap⟩ with
  | (.error e, w') => (.error e, w')
  | (.ok p, w') => (.ok p, addAll b env (windowRules env) w')

/-- What `oml_main` does first: the command line is parsed between the two sets of rules. -/
def boot : Outcome × World :=
  match (installMinimalRules b env World.root).call b.ty ⟨.get, 0, b.hash .CLIParser⟩ with
  | (.error e, w) => (.error e, w)
  | (.ok _, w) => installDefaultRules b env w

/-- All rules, in the order in which they are added. -/
def allRules : List Rule := minimalRules ++ defaultRules b env ++ windowRules env

end

/-- `get` or `creat` by the application, which does not throw. A program that asks `creat`
for an interface is not compiled. -/
def askStep (b : Build) (w : World) (r : Request) (w' : World) : Prop :=
  (r.kind = .creat → r.type.isInterface = false) ∧
  ∃ p, w.call b.ty ⟨r.kind, 0, b.hash r.type⟩ = (.ok p, w')

end Omulator.Wiring
