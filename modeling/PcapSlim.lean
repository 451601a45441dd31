import PcapSlim.Lib.Buffer
import PcapSlim.Lib.Octets
import PcapSlim.Lib.Agree
import PcapSlim.Lib.OnesComplement
import PcapSlim.Lib.Run
import PcapSlim.Lib.Loop
import PcapSlim.Lib.Files
import PcapSlim.Lib.TokenBucket
import PcapSlim.Checksum
import PcapSlim.Parse
import PcapSlim.Policy
import PcapSlim.Truncate
import PcapSlim.Packet
import PcapSlim.ParseLoops
import PcapSlim.ParseTheorems
import PcapSlim.IpOptions
import PcapSlim.LoopTheorems
import PcapSlim.Layout
import PcapSlim.PolicyTheorems
import PcapSlim.ChecksumTheorems
import PcapSlim.ChecksumOverflow
import PcapSlim.TruncateTheorems
import PcapSlim.PacketTheorems
import PcapSlim.ApplyTheorems
import PcapSlim.RewriteTheorems
import PcapSlim.DatagramTheorems
import PcapSlim.RoutingTheorems
import PcapSlim.WellFormed
import PcapSlim.WellFormedTheorems
import PcapSlim.PcapIo
import PcapSlim.Capture
import PcapSlim.PcapIoTheorems
import PcapSlim.AccountTheorems
import PcapSlim.AnalyzeTheorems
import PcapSlim.VisibleTheorems
import PcapSlim.Coord
import PcapSlim.CoordTheorems
import PcapSlim.CoordSharedTheorems
import PcapSlim.CoordDirectoryTheorems
import PcapSlim.Report
import PcapSlim.Directory
import PcapSlim.Cli
import PcapSlim.DirectoryTheorems
import PcapSlim.CliTheorems
import PcapSlim.ReportTheorems
import PcapSlim.FrameTheorems
import PcapSlim.SessionTheorems
import PcapSlim.TerminationTheorems
import PcapSlim.OutcomeTheorems
import PcapSlim.RepeatTheorems
import PcapSlim.Limit
import PcapSlim.LimitTheorems
import PcapSlim.Governor
import PcapSlim.GovernorTheorems
import PcapSlim.Workload
import PcapSlim.WorkloadTheorems
import PcapSlim.Fleet
import PcapSlim.FleetTheorems
import PcapSlim.FleetProgress
import PcapSlim.JobTheorems
