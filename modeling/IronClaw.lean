import IronClaw.ToolBatch
import IronClaw.HookPolicy
import IronClaw.AgentLoop
import IronClaw.FollowUps
import IronClaw.JobDispatch
import IronClaw.SecretLeak
import IronClaw.McpPending
import IronClaw.RigAdapter
import IronClaw.Hydration
import IronClaw.PairingRace
import IronClaw.SkillCeiling
import IronClaw.ApprovalState
import IronClaw.GroupPrompt
import IronClaw.AppendRace
import IronClaw.OutputFence
import IronClaw.ServingCost
import IronClaw.JobPersistence
import IronClaw.AuditTrail
import IronClaw.SandboxProxy
import IronClaw.ContainerJobs
import IronClaw.RoutineLimits
import IronClaw.RoutineBookkeeping
import IronClaw.ThreadResolution
import IronClaw.SessionPruning
import IronClaw.Redaction
import IronClaw.ExternalFence
import IronClaw.InjectionEscape
import IronClaw.Validator
import IronClaw.HttpEgress
import IronClaw.McpDecoding
import IronClaw.CacheCalls
import IronClaw.EmbeddingCache
import IronClaw.PathSandbox
import IronClaw.Chunker
import IronClaw.SearchFusion
import IronClaw.ProfileSection
import IronClaw.OptionalProperties
import IronClaw.JobHistory
import IronClaw.ContextCuts
import IronClaw.SkillFence
import IronClaw.Compaction
import IronClaw.SkillSelector
import IronClaw.SkillFile
import IronClaw.EndpointAllowlist
import IronClaw.EnvUpsert
import IronClaw.ThinkingTags
import IronClaw.EmitLimiter
import IronClaw.ToolRateLimiter
import IronClaw.ShellGuard
import IronClaw.SubmissionWords
import IronClaw.SseResponse
import IronClaw.Heartbeat
import IronClaw.ChannelHost
import IronClaw.KeyRedaction
import IronClaw.SettingsStore
import IronClaw.WorkspacePaths
import IronClaw.CredentialBase64
import IronClaw.QueryBrackets
import IronClaw.RetryBackoff
import IronClaw.CodeRegions
import IronClaw.BedrockRequests
import IronClaw.CodexCalls
import IronClaw.SignalStream
import IronClaw.WorkerIsolation
