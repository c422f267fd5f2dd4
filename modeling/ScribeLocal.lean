import ScribeLocal.Transition
import ScribeLocal.Db.Queue
import ScribeLocal.Db.RetryBound
import ScribeLocal.Server.Lease
import ScribeLocal.Server.Effect
import ScribeLocal.Server.Snapshot
import ScribeLocal.Server.Progress
import ScribeLocal.Server.Stranded
import ScribeLocal.Server.Errands
import ScribeLocal.Server.Handover
import ScribeLocal.Server.Join
import ScribeLocal.Server.SideChannel
import ScribeLocal.Server.Stages
import ScribeLocal.Server.Transcript
import ScribeLocal.Server.Current
import ScribeLocal.Server.Drain
import ScribeLocal.Server.Once
import ScribeLocal.Server.Fence
import ScribeLocal.Server.Removal
import ScribeLocal.Server.Replace
import ScribeLocal.Server.Heartbeat
import ScribeLocal.Pipeline.ConcatList
import ScribeLocal.Server.LiveOnce
import ScribeLocal.Server.LiveRequeue
import ScribeLocal.Server.Timeline
import ScribeLocal.Asr.Transcribe
import ScribeLocal.Phone.Acts
import ScribeLocal.Phone.Kept
import ScribeLocal.Phone.Killed
import ScribeLocal.Phone.Link
import ScribeLocal.Phone.Sent
import ScribeLocal.Schedule.Edits
import ScribeLocal.Server.Deferred
import ScribeLocal.Asr.Cluster
import ScribeLocal.Asr.MergeSequence
import ScribeLocal.Asr.Speakers
import ScribeLocal.Asr.StatedCount
import ScribeLocal.Blobs.Delete
import ScribeLocal.Server.CompleteOnce
import ScribeLocal.Server.SummaryRequest
import ScribeLocal.Update.Install
import ScribeLocal.Update.Signed
import ScribeLocal.Update.Undone
import ScribeLocal.Update.Upward
import ScribeLocal.Greedy
import ScribeLocal.Linkage
import ScribeLocal.Asr.AverageLinkage
import ScribeLocal.Asr.Contiguous
import ScribeLocal.Asr.InferredCount
import ScribeLocal.Asr.PersonsWorth
import ScribeLocal.Asr.Shuffle
import ScribeLocal.Asr.ShuffledCut
import ScribeLocal.Asr.ShuffledSpeakers
import ScribeLocal.Asr.ShuffledVoices
import ScribeLocal.Asr.FirstPlaced
import ScribeLocal.Asr.OrderIndependence
import ScribeLocal.Asr.OrderDependence
import ScribeLocal.Pipeline.Identities
import ScribeLocal.Pipeline.Utterances
import ScribeLocal.Schedule.Windows
import ScribeLocal.Schedule.NextChange
import ScribeLocal.Tally
import ScribeLocal.Utf8
import ScribeLocal.JsonText
import ScribeLocal.Pipeline.Labels
import ScribeLocal.Pipeline.JsonBlock
import ScribeLocal.Pipeline.Corrections
import ScribeLocal.Tiling
import ScribeLocal.Uncovered
import ScribeLocal.Asr.SilenceSplit
import ScribeLocal.Asr.Windows
import ScribeLocal.Asr.Gaps
import ScribeLocal.LittleEndian
import ScribeLocal.Asr.WordTimes
import ScribeLocal.Asr.Wav
import ScribeLocal.Api.Range
import ScribeLocal.Asr.Trim
import ScribeLocal.Phone.SegmentedRecorder
import ScribeLocal.Pipeline.SplitLines
import ScribeLocal.Asr.ReplayAgreement
import ScribeLocal.Phone.Karaoke
import ScribeLocal.Pipeline.Title
import ScribeLocal.Api.ListRecordings
import ScribeLocal.Api.JsonRpc
import ScribeLocal.Db.Enqueue
import ScribeLocal.Api.NameSpeaker
import ScribeLocal.Api.Identity
import ScribeLocal.Api.SpeakerRequests
import ScribeLocal.LexicalPath
import ScribeLocal.Api.PutSegment
import ScribeLocal.Asr.MergeCosts
import ScribeLocal.Asr.EmbedSlices
import ScribeLocal.Pipeline.Merge
import ScribeLocal.Pipeline.Chunks
import ScribeLocal.Asr.Diarize
import ScribeLocal.Pipeline.Inline
import ScribeLocal.Db.Search
import ScribeLocal.Pipeline.Summarize
import ScribeLocal.Cli.Found
import ScribeLocal.Update.Reverted
import ScribeLocal.Update.Sign
import ScribeLocal.Server.Checklist
import ScribeLocal.Schedule.Gate
import ScribeLocal.Schedule.Watch
