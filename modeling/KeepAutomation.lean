import KeepAutomation.AtMostOnce
import KeepAutomation.Drift
import KeepAutomation.RacedFailure
import KeepAutomation.Wallet
import KeepAutomation.Teardown
import KeepAutomation.CheckpointOrder
import KeepAutomation.CascadeConfluence
import KeepAutomation.AuditReplay
import KeepAutomation.Tenancy
import KeepAutomation.RunFinalization
import KeepAutomation.CascadeProgress
import KeepAutomation.RowCoherence
import KeepAutomation.Requests
import KeepAutomation.EditFailures
import KeepAutomation.ReconciledEdits
import KeepAutomation.DeboardPass
import KeepAutomation.DeboardTruth
import KeepAutomation.TeamSecrets
import KeepAutomation.ImageBinding
import KeepAutomation.DefinitionVerdicts
import KeepAutomation.ScriptCheck
import KeepAutomation.AuthoringValidation
import KeepAutomation.ScriptRepo
import KeepAutomation.RegistryScope
import KeepAutomation.DeletionProgress
import KeepAutomation.Notices
import KeepAutomation.CiWebhookGuard
import KeepAutomation.FailClosed
import KeepAutomation.ScriptHead
import KeepAutomation.StandIns
import KeepAutomation.Publishers
import KeepAutomation.WebhookPayload
import KeepAutomation.WebhookServer
import KeepAutomation.LifecycleAutomaton
import KeepAutomation.Redelivery
import KeepAutomation.ListOrder
