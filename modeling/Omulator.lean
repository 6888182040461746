import Omulator.Lib.Apart
import Omulator.Lib.Comp
import Omulator.Lib.Cycle
import Omulator.Lib.Transition
import Omulator.Di.TypeMap
import Omulator.Di.Receiver
import Omulator.Di.Failure
import Omulator.Di.CycleCheck
import Omulator.Di.Binding
import Omulator.Di.Nearest
import Omulator.Di.Stability
import Omulator.Di.Destruction
import Omulator.Di.Calls
import Omulator.Di.Precedence
import Omulator.Di.Adoption
import Omulator.Di.Container
import Omulator.Msg.LifeCycle
import Omulator.Msg.Delivery
import Omulator.Msg.Throwing
import Omulator.Msg.Stale
import Omulator.Msg.Trivial
import Omulator.Props.LastWrite
import Omulator.Props.Coercion
import Omulator.Props.CLIParser
import Omulator.Threads.Endpoints
import Omulator.Threads.Insertions
import Omulator.Threads.Receivers
import Omulator.Threads.Subsystem
import Omulator.Threads.Teardown
import Omulator.Threads.Atomicity
import Omulator.Threads.CLIInput
import Omulator.Threads.PropertyCalls
import Omulator.Threads.Handover
import Omulator.Threads.Router
import Omulator.Vk.Resize
import Omulator.Vk.SimpleMesh
import Omulator.Vk.Handles
import Omulator.Core.System
import Omulator.Core.MainLoop
import Omulator.Core.Boot
import Omulator.Core.Iterations
import Omulator.Core.Progress
import Omulator.Core.Prompt
import Omulator.Util.TypeHash
