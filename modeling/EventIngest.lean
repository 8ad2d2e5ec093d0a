import EventIngest.DeadLetter
import EventIngest.Health
import EventIngest.Settings.Basic
import EventIngest.Source.Faulty
import EventIngest.Store.Planned
import EventIngest.Proofs.Custody
import EventIngest.Proofs.Course
import EventIngest.Proofs.SettledOnce
import EventIngest.Proofs.Guarded
import EventIngest.Proofs.Conserved
import EventIngest.Proofs.Within
import EventIngest.Proofs.PoolCourse
import EventIngest.Proofs.LogSound
import EventIngest.Proofs.LogMoves
import EventIngest.Proofs.NothingStranded
import EventIngest.Proofs.AtLeastOnce
import EventIngest.Proofs.CommitExact
import EventIngest.Proofs.HandOuts
import EventIngest.Proofs.PutAside
import EventIngest.Proofs.Quiet
import EventIngest.Proofs.Drained
import EventIngest.Proofs.Starved
import EventIngest.Proofs.FlushTimes
import EventIngest.Proofs.Shutdown
import EventIngest.Proofs.Tallies
import EventIngest.Proofs.Independent
import EventIngest.Proofs.Readiness
import EventIngest.Proofs.CommitsPrompt
import EventIngest.Proofs.Utf8Pieces
import EventIngest.Proofs.JsonWritten
import EventIngest.Proofs.JsonRecords
import EventIngest.Proofs.EventWire
import EventIngest.Proofs.DeadLetterWire
import EventIngest.Proofs.Retrying
import EventIngest.Proofs.BatchCuts
import EventIngest.Proofs.LedgerAccounts
import EventIngest.Proofs.Isolation
import EventIngest.Proofs.LedgerSlices
import EventIngest.Proofs.JsonTexts
import EventIngest.Proofs.JsonLiterals
import EventIngest.Proofs.JsonNumerals
import EventIngest.Proofs.JsonSkipped
import EventIngest.Proofs.JsonDocuments
import EventIngest.Proofs.KnownMembers
import EventIngest.Proofs.AcceptedTexts
import EventIngest.Proofs.CalendarDates
import EventIngest.Proofs.Timestamps
import EventIngest.Proofs.DeadLetterKeys
import EventIngest.Proofs.Reporting
import EventIngest.Proofs.ValidSettings
