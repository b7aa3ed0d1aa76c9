import InferenceServer.AnsweredCalls
import InferenceServer.BackendCalls
import InferenceServer.ChangingRepository
import InferenceServer.Convergence
import InferenceServer.CreatedBackends
import InferenceServer.ExitSignals
import InferenceServer.Frontend
import InferenceServer.HotUpdate
import InferenceServer.InferClient
import InferenceServer.InferenceCore
import InferenceServer.OutputPermutation
import InferenceServer.ReplyOutputs
import InferenceServer.SchedulerDrain
import InferenceServer.ServerRest
import InferenceServer.ServiceConfig
import InferenceServer.Snapshot
import InferenceServer.VersionSelection
