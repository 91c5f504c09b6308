import Kolla.Build.PushRetries
import Kolla.Build.AttemptSteps
import Kolla.Build.Archives
import Kolla.Build.Dependencies
import Kolla.Build.FinalStatuses
import Kolla.Build.Association
import Kolla.Build.Cycles
import Kolla.Build.EngineCall
import Kolla.Base.KollaPatch
import Kolla.ProxySql.ConfigSync
import Kolla.SetConfigs.Mismatch
import Kolla.SetConfigs.FirstStart
import Kolla.SetConfigs.Exclusion
import Kolla.SetConfigs.Layering
import Kolla.Template.Filters
import Kolla.Template.Repos
import Kolla.Build.Overrides
import Kolla.LetsEncrypt.DomainOptions
import Kolla.ProxySql.Loading
import Kolla.SetConfigs.PermText
import Kolla.SetConfigs.Properties
import Kolla.Build.Shutdown
import Kolla.SetConfigs.Container
import Kolla.SetConfigs.Restore
import Kolla.Build.TemplateOnly
