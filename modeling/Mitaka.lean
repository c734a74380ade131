import Mitaka.Swift.OndiskReplication
import Mitaka.Swift.RsyncMerge
import Mitaka.Swift.SyncPoints
import Mitaka.Swift.SloListing
import Mitaka.Swift.PolicyIndex
import Mitaka.Swift.PolicyStat
import Mitaka.Keystone.FernetRoundTrip
import Mitaka.Heat.TaskGroupRuns
import Mitaka.Nova.NumaRuns
import Mitaka.Keystone.RoleFilters
import Mitaka.Heat.ConvergenceRuns
import Mitaka.Aodh.HashRing
import Mitaka.Neutron.IpamRuns
import Mitaka.Nova.QuotaRuns
import Mitaka.Cinder.BackupChain
import Mitaka.Keystone.TrustRuns
import Mitaka.Keystone.ResourceRuns
import Mitaka.Neutron.SubnetPoolQuota
import Mitaka.Neutron.QuotaTracking
import Mitaka.Neutron.ReservationRuns
import Mitaka.Cinder.NestedQuotaRuns
import Mitaka.Designate.PoolRuns
import Mitaka.Neutron.SegmentRuns
import Mitaka.Neutron.FirewallUpdates
import Mitaka.Ironic.Transitions
import Mitaka.Ironic.HashRing
import Mitaka.Swift.ContentTypeColumn
import Mitaka.Swift.Ssync
import Mitaka.Swift.Coalesce
import Mitaka.Swift.Dispersion
import Mitaka.Swift.Handoffs
import Mitaka.Swift.EcRange
import Mitaka.Swift.Byteranges
import Mitaka.Nova.NumaPacking
import Mitaka.Nova.CpuTopology
import Mitaka.Heat.Wrappertask
import Mitaka.Nova.NumaUsage
import Mitaka.Nova.NumaHistory
import Mitaka.Heat.ResourceRuns
import Mitaka.Heat.DependencyOrder
import Mitaka.Heat.InstanceGroup
import Mitaka.Heat.ResourceGroup
import Mitaka.Keystone.FernetKeys
import Mitaka.Keystone.RevokeRemoval
import Mitaka.Heat.SyncPointData
import Mitaka.Keystone.MappingRules
import Mitaka.Neutron.MergeResult
import Mitaka.Aodh.Threshold
import Mitaka.Cinder.ImageCache
import Mitaka.Ironic.StateMachine
import Mitaka.Neutron.IpsetManager
import Mitaka.Neutron.ItemAllocator
import Mitaka.Neutron.PortRules
import Mitaka.Ceilometer.Aggregator
import Mitaka.Ceilometer.Rates
import Mitaka.Glance.CooperativeReader
import Mitaka.Keystone.TrustUses
import Mitaka.Neutron.ConntrackZones
import Mitaka.Swift.ReconcilerFeed
import Mitaka.Glance.StoreLocationRuns
