import FsBench.Bench.Main
import FsBench.Bench.Polling
import FsBench.Bench.ReadDir
import FsBench.Bench.RenamePass
import FsBench.Bench.Reports
import FsBench.Bench.Workload
import FsBench.Fdisk.Address
import FsBench.Fdisk.History
import FsBench.Fdisk.Links
import FsBench.Fdisk.Order
import FsBench.Fdisk.Reread
import FsBench.Fdisk.Sound
import FsBench.Fdisk.Success
import FsBench.Medium.Command
import FsBench.Recorder.Rows
import FsBench.Recorder.Threads
import FsBench.Recorder.Clock
import FsBench.Bench.Arguments
import FsBench.Bench.Streams
import FsBench.Bench.Measured
import FsBench.Fdisk.Frame
import FsBench.Bench.Launch
import FsBench.Bench.Leftover
import FsBench.Bench.Folders
import FsBench.Fdisk.Edit
import FsBench.Bench.Mounts
import FsBench.Fdisk.Buffers
import FsBench.Recorder.Schedule
import FsBench.Bench.CommandLine
import FsBench.Bench.Performed
import FsBench.Fdisk.Rework
import FsBench.Bench.Saved
import FsBench.Fdisk.Version
