/-
PcapSlim.LoopTheorems — the loops of `parse.rs` end.

Every round that goes on moves by the length of what it steps over, and stays
within the data: four bytes for a tag, at least eight for an extension header, at
least two for an option. So each loop ends, in fewer rounds than the bounded one
allows for, and with its result. This holds for all byte strings.
-/
import PcapSlim.IpOptions

namespace PcapSlim.Parse

open Lib.Buffer Lib.Octets Lib.Loop

/-! ## A round moves on -/

theorem l2Round_progress (frame : Bytes) (off : Nat) :
    (∃ r, l2Round frame off = .ok (.leave r)) ∨
      l2Round frame off = .ok (.again (off + 4)) ∧ off + 4 ≤ frame.length := by
  unfold l2Round
  by_cases hend : off + 2 > frame.length
  · exact .inl ⟨none, by rw [if_pos hend]; rfl⟩
  rw [if_neg hend, readBe16_ok (by omega), ok_bind]
  by_cases htag : be16At frame off ≠ ethertypeVlan
  · exact .inl ⟨_, by rw [if_pos htag]; rfl⟩
  rw [if_neg htag]
  by_cases hcut : off + 4 > frame.length
  · exact .inl ⟨none, by rw [if_pos hcut]; rfl⟩
  · exact .inr ⟨by rw [if_neg hcut]; rfl, by omega⟩

/-- An extension header is at least eight bytes long. -/
theorem ipv6Round_progress {frame : Bytes} {stop : Nat} (hstop : stop ≤ frame.length)
    (next : UInt8) (off : Nat) :
    (∃ r, ipv6Round frame stop (next, off) = .ok (.leave r)) ∨
      ∃ next' off', ipv6Round frame stop (next, off) = .ok (.again (next', off')) ∧
        off + 8 ≤ off' ∧ off' ≤ stop := by
  by_cases hlt : off < stop
  · rw [ipv6Round_eq hstop hlt]
    cases hlen : extHeaderLen next (elemAt frame (off + 1)) with
    | none => exact .inl ⟨_, rfl⟩
    | some len =>
      have hge := extHeaderLen_ge hlen
      dsimp only
      by_cases hcut : off + len > stop
      · exact .inl ⟨none, if_pos hcut⟩
      · exact .inr ⟨_, _, if_neg hcut, by omega, by omega⟩
  · exact .inl ⟨none, by rw [ipv6Round, if_pos (by omega)]; rfl⟩

/-- An option that is stepped over is at least two bytes long. -/
theorem pseudoDstRound_progress {buf : Bytes} {stop : Nat} (hstop : stop ≤ buf.length)
    (dflt : FixedBytes 4) (i : Nat) :
    (∃ dst, pseudoDstRound buf stop dflt i = .ok (.leave dst)) ∨
      ∃ i', pseudoDstRound buf stop dflt i = .ok (.again i') ∧ i + 2 ≤ i' ∧ i' ≤ stop := by
  cases hfront : frontTlv ((buf.take stop).drop i) with
  | none => exact .inl ⟨dflt, pseudoDstRound_none dflt hstop hfront⟩
  | some option =>
    obtain ⟨i', hge, hle, -, hround⟩ := pseudoDstRound_some dflt hstop hfront
    rw [hround]
    cases lastAddress option.1 option.2.1 with
    | some dst => exact .inl ⟨dst, rfl⟩
    | none => exact .inr ⟨i', rfl, hge, hle⟩

/-! ## The loops end -/

theorem l2_ends {frame : Bytes} (hlen : 14 ≤ frame.length) :
    ∃ n r, Ends (l2Round frame) 12 n r ∧ l2EthertypeAndL3Start frame = .ok r := by
  have hround : ∀ off, (∃ r, l2Round frame off = .ok (.leave r)) ∨
      ∃ off', l2Round frame off = .ok (.again off') ∧
        frame.length - off' < frame.length - off := by
    intro off
    rcases l2Round_progress frame off with hleave | ⟨hagain, hle⟩
    · exact .inl hleave
    · exact .inr ⟨_, hagain, by omega⟩
  obtain ⟨n, r, hends, hr⟩ := bounded_of_measure (l2Loop_succ frame)
    (fun off => frame.length - off) hround (show frame.length - 12 < frame.length by omega)
  refine ⟨n, r, hends, ?_⟩
  rw [l2EthertypeAndL3Start, if_neg (by omega)]
  exact hr

theorem ipv6Loop_ends {frame : Bytes} {stop : Nat} (hstop : stop ≤ frame.length) (next : UInt8)
    {off : Nat} (hpos : 0 < off) (hoff : off ≤ frame.length) :
    ∃ n r, Ends (ipv6Round frame stop) (next, off) n r ∧
      ipv6Loop frame stop frame.length next off = .ok r := by
  have hround : ∀ s, (∃ r, ipv6Round frame stop s = .ok (.leave r)) ∨
      ∃ s', ipv6Round frame stop s = .ok (.again s') ∧ stop - s'.2 < stop - s.2 := by
    intro s
    rcases ipv6Round_progress hstop s.1 s.2 with hleave | ⟨next', off', hagain, hge, hle⟩
    · exact .inl hleave
    · exact .inr ⟨_, hagain, by dsimp only; omega⟩
  have hfuel : stop - (next, off).2 < frame.length := by
    dsimp only
    omega
  exact bounded_of_measure (F := fun fuel (s : UInt8 × Nat) => ipv6Loop frame stop fuel s.1 s.2)
    (ipv6Loop_succ frame stop) (fun s => stop - s.2) hround hfuel

theorem pseudoDstLoop_ends {buf : Bytes} {ip hl : Nat} (hcaptured : ip + hl ≤ buf.length)
    (hoptions : 20 < hl) (dflt : FixedBytes 4) :
    ∃ n dst, Ends (pseudoDstRound buf (ip + hl) dflt) (ip + 20) n dst ∧
      pseudoDstLoop buf (ip + hl) dflt hl (ip + 20) = .ok dst := by
  have hround : ∀ i, (∃ dst, pseudoDstRound buf (ip + hl) dflt i = .ok (.leave dst)) ∨
      ∃ i', pseudoDstRound buf (ip + hl) dflt i = .ok (.again i') ∧
        ip + hl - i' < ip + hl - i := by
    intro i
    rcases pseudoDstRound_progress hcaptured dflt i with hleave | ⟨i', hagain, hge, hle⟩
    · exact .inl hleave
    · exact .inr ⟨i', hagain, by omega⟩
  exact bounded_of_measure (pseudoDstLoop_succ buf (ip + hl) dflt) (fun i => ip + hl - i) hround
    (show ip + hl - (ip + 20) < hl by omega)

/-- The loops over the bytes `buf` end, each with the result that the bounded one has
in the calls of its function. -/
structure LoopsEnd (buf : Bytes) : Prop where
  tags : 14 ≤ buf.length →
    ∃ n r, Ends (l2Round buf) 12 n r ∧ l2EthertypeAndL3Start buf = .ok r
  extensions : ∀ (stop off : Nat) (next : UInt8), stop ≤ buf.length → 0 < off →
    off ≤ buf.length → ∃ n r, Ends (ipv6Round buf stop) (next, off) n r ∧
      ipv6Loop buf stop buf.length next off = .ok r
  options : ∀ (ip hl : Nat) (dflt : FixedBytes 4), ip + hl ≤ buf.length → 20 < hl →
    ∃ n dst, Ends (pseudoDstRound buf (ip + hl) dflt) (ip + 20) n dst ∧
      pseudoDstLoop buf (ip + hl) dflt hl (ip + 20) = .ok dst

theorem loopsEnd (buf : Bytes) : LoopsEnd buf where
  tags hlen := l2_ends hlen
  extensions _ _ next hstop hpos hoff := ipv6Loop_ends hstop next hpos hoff
  options _ _ dflt hcaptured hoptions := pseudoDstLoop_ends hcaptured hoptions dflt

end PcapSlim.Parse
