import Outbox.Keyed
import Outbox.Text.Decimal
import Outbox.Text.Blank
import Outbox.Calendar
import Outbox.Instant.Text
import Outbox.ItemId.Text
import Outbox.Retry
import Outbox.Item.Json
import Outbox.Outcome.Json
import Outbox.Options.Json
import Outbox.Table.Maintenance
import Outbox.Table.Session
import Outbox.Registration
import Outbox.Partition.Upkeep
import Outbox.Loop.Worker
import Outbox.Loop.Partition
import Outbox.Sql.Repository
import Outbox.Sql.Maintenance
import Outbox.Sql.Partition
import Outbox.Rehearsal.Schedule
import Outbox.Rehearsal.SqlRun
import Outbox.Main
import Outbox.Proofs.Atomicity
import Outbox.Proofs.Conservation
import Outbox.Proofs.Serializability
import Outbox.Proofs.UnitsOfWork
import Outbox.Proofs.InOrder
import Outbox.Proofs.Ownership
import Outbox.Proofs.CommitOrder
import Outbox.Proofs.PartitionNames
import Outbox.Proofs.Catalogue
import Outbox.Proofs.UpkeepRuns
import Outbox.Proofs.Maintenance
import Outbox.Proofs.Coverage
import Outbox.Proofs.Retention
import Outbox.Proofs.Availability
import Outbox.Proofs.Tiling
import Outbox.Proofs.Crews
import Outbox.Proofs.Resumption
import Outbox.Proofs.StatementEffects
import Outbox.Proofs.Transcripts
import Outbox.Proofs.LifeCycles
import Outbox.Proofs.Attempts
import Outbox.Proofs.Service
import Outbox.Proofs.Tallies
import Outbox.Proofs.WorkerRuns
import Outbox.Proofs.PartitionRuns
import Outbox.Proofs.Lanes
import Outbox.Proofs.Isolation
import Outbox.Proofs.Fetching
import Outbox.Proofs.Walks
import Outbox.Proofs.Settling
import Outbox.Proofs.Batching
import Outbox.Proofs.Delays
import Outbox.Proofs.Rescheduling
import Outbox.Proofs.RowCounts
import Outbox.Proofs.StatementTexts
import Outbox.Proofs.RangeNames
import Outbox.Proofs.IdOrder
import Outbox.Proofs.Retirements
import Outbox.Proofs.Configuration
