import CSE320.Lib.Run
import CSE320.Lib.Sum
import CSE320.Xacto.Transaction
import CSE320.Xacto.Transaction.Lemmas
import CSE320.Xacto.Transaction.Views
import CSE320.Xacto.Dependency
import CSE320.Xacto.Data
import CSE320.Xacto.Status
import CSE320.Xacto.References
import CSE320.Xacto.Protocol
import CSE320.Xacto.Server
import CSE320.Xacto.Server.Finish
import CSE320.Xacto.Threads
import CSE320.Xacto.Threads.Commit
import CSE320.Xacto.Threads.Wakeup
import CSE320.Lib.Ring
import CSE320.Sfmm.Memory
import CSE320.Sfmm.Alloc
import CSE320.Sfmm.Free
import CSE320.Sfmm.Client
import CSE320.Sfmm.Layout
import CSE320.Sfmm.Lists
import CSE320.Sfmm.Search
import CSE320.Sfmm.Tags
import CSE320.Sfmm.Invariant
import CSE320.Sfmm.Shape
import CSE320.Sfmm.Init
import CSE320.Sfmm.Malloc
import CSE320.Sfmm.Release
import CSE320.Sfmm.Resize
import CSE320.Sfmm.Owned
import CSE320.Sfmm.Exec
import CSE320.Sfmm.Safety
import CSE320.Sfmm.Tiling
import CSE320.Sfmm.Coalescing
import CSE320.Sfmm.FreeLists
import CSE320.Xacto.TransList
import CSE320.Lib.Bytes
import CSE320.Xacto.Framing
import CSE320.Xacto.Registry
import CSE320.Lib.Format
import CSE320.Mips.Instruction
import CSE320.Mips.Code
import CSE320.Mips.Main
import CSE320.Mips.Disassemble
import CSE320.Mips.Endian
import CSE320.Mips.Assemble
import CSE320.Mips.Canonical
import CSE320.Mips.RoundTrip
import CSE320.Audible.Options
import CSE320.Audible.Recode
import CSE320.Audible.Stream
import CSE320.Audible.Crypt
import CSE320.Audible.WellFormed
import CSE320.Spooler.Search
import CSE320.Spooler.State
import CSE320.Spooler.Main
import CSE320.Spooler.Path
import CSE320.Spooler.Schedule
import CSE320.Spooler.Prompt
import CSE320.Spooler.Walk
import CSE320.Spooler.Processes
import CSE320.Spooler.Reach
import CSE320.Spooler.Bounds
import CSE320.Imprimer.Vscreen
import CSE320.Imprimer.Refresh
import CSE320.Sfmm.BestFit
import CSE320.Mips.Reencode
import CSE320.Sfmm.Requests
import CSE320.Sfmm.Validate
import CSE320.Sfmm.Growth
import CSE320.Sfmm.Payload
import CSE320.Sfmm.Deliver
import CSE320.Grades.Data
import CSE320.Grades.Stats
import CSE320.Grades.Normal
import CSE320.Grades.Tables
import CSE320.Grades.Grading
import CSE320.Grades.Order
import CSE320.Mips.Operands
import CSE320.Mips.Words
import CSE320.Grades.Sort
import CSE320.Mips.Arguments
import CSE320.Grades.Roster
import CSE320.Grades.Frequency
import CSE320.Grades.Quantile
import CSE320.Grades.Links
import CSE320.Lib.Ensures
import CSE320.Grades.Read
import CSE320.Grades.Write
import CSE320.Grades.Accepted
import CSE320.Grades.Written
import CSE320.Grades.Assigned
import CSE320.Grades.Scored
import CSE320.Grades.Reread
import CSE320.Grades.RoundTrip
import CSE320.Grades.Average
import CSE320.Grades.Duplicates
import CSE320.Grades.Extremes
import CSE320.Lib.Number
import CSE320.Grades.Numbers
import CSE320.Lib.Rounding
import CSE320.Lib.Arithmetic
import CSE320.Grades.Bins
import CSE320.Grades.Spans
import CSE320.Grades.Histogram
import CSE320.Grades.Interpolate
import CSE320.Lib.Tour
import CSE320.Spooler.Conversions
import CSE320.Audible.Frame
import CSE320.Audible.Header
import CSE320.Audible.Output
import CSE320.Audible.Keystream
import CSE320.Audible.Grammar
import CSE320.Audible.SpeedUp
import CSE320.Audible.Annotation
import CSE320.Lib.Bits
import CSE320.Lib.CString
import CSE320.Spooler.Numbers
import CSE320.Spooler.Eligible
import CSE320.Spooler.Registration
import CSE320.Lib.Sweep
import CSE320.Spooler.Office
import CSE320.Spooler.Refinement
import CSE320.Spooler.Session
import CSE320.Spooler.History
import CSE320.Audible.SlowDown
import CSE320.Imprimer.Terminal
import CSE320.Imprimer.Mainloop
import CSE320.Audible.ReadAnnotation
import CSE320.Xacto.Truncated
import CSE320.Xacto.Key
import CSE320.Snarf.Parts
import CSE320.Snarf.HeaderLines
import CSE320.Snarf.Headers
import CSE320.Snarf.CommandLine
import CSE320.Snarf.Reply
import CSE320.Snarf.Main
import CSE320.Lib.Progress
import CSE320.Xacto.Threads.Live
import CSE320.Xacto.Threads.Progress
import CSE320.Xacto.Threads.Outcome
import CSE320.Lib.Stream
import CSE320.Xacto.Wire
import CSE320.Xacto.Requests
import CSE320.Sfmm.Frame
import CSE320.Sfmm.Contents
import CSE320.Grades.Include
import CSE320.Grades.Included
import CSE320.Grades.Spread
