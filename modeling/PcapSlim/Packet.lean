/-
PcapSlim.Packet — `packet.rs`: the decision and the cut of one frame, as the
slim and the analyze passes share them.
-/
import PcapSlim.Truncate

namespace PcapSlim

open Lib.Buffer Lib.Octets

namespace Packet

open Parse Policy Truncate

/-- `PacketOutcome`. -/
inductive PacketOutcome where
  | keep
  | truncated (buf : Bytes)
  deriving DecidableEq, Repr

/-- `process_packet`: the outcome, and whether the payload was cut. -/
def processPacket (build : Build) (frame : Bytes) : Checked (PacketOutcome × Bool) := do
  match ← parseFrame frame with
  | .error _ => return (.keep, false)
  | .ok parsed =>
      match ← decideAction parsed with
      | .keep => return (.keep, false)
      | .truncate =>
          let (buf, shortened) ← applyTruncateOnParsed build frame parsed
          if shortened then return (.truncated buf, true) else return (.keep, false)

end Packet

end PcapSlim
