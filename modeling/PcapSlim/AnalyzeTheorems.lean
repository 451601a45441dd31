/-
PcapSlim.AnalyzeTheorems — the slim pass, its dry run and the packet counter read
a file the same way.

The dry run is the slim pass without its output: `Tracks` relates the variables of
the two record loops, `analyzeRound_of_slimRound` runs one round of both in
lockstep, and so `analyzePcap_eq` holds for every byte string, panics included.
The counter does not look into the records; `countPackets_of_rejected` says that
it rejects what the slim pass rejects. `passes_agree` puts the three together.
-/
import PcapSlim.PcapIoTheorems

namespace PcapSlim.PcapIo

open Lib.Buffer Lib.Octets Packet Capture

variable {build : Build} {e : Endian}

/-! ## The dry run in lockstep with the slim pass -/

/-- The variables of the two loops before the same round: `bodyBytes` is what the
slim pass has emitted behind the global header. -/
structure Tracks (s : SlimState) (a : AnalyzeState) : Prop where
  input : a.input = s.input
  frameBuf : a.frameBuf = s.frameBuf
  stats : a.stats = s.stats
  emitted : s.batch.emitted.length = pcapHdrLen + a.bodyBytes

/-- The record that is batched has a header of 16 bytes, as the dry run counts it. -/
theorem length_writeU32_fields (e : Endian) {hdr : Bytes} (h : hdr.length = 16)
    (a b c d : UInt32) :
    (e.writeU32 (e.writeU32 (e.writeU32 (e.writeU32 hdr 0 a) 4 b) 8 c) 12 d).length =
      pcapRecHdrLen := by
  rw [writeU32_fields e h]
  simp only [List.length_append, length_bytes]
  rfl

/-- The two loop bodies do the same to what they share. -/
theorem analyzeRecord_of_slimRecord (build : Build) (e : Endian) {recHdr : Bytes} {s : SlimState}
    {a : AnalyzeState} (hhdr : recHdr.length = 16) (h : Tracks s a) :
    (∃ failure, slimRecord build e recHdr s = .error failure ∧
      analyzeRecord build a = .error failure) ∨
    ∃ s' a', slimRecord build e recHdr s = .ok s' ∧ analyzeRecord build a = .ok a' ∧
      Tracks s' a' := by
  obtain ⟨input, frameBuf, bodyBytes, stats⟩ := a
  obtain ⟨rfl, rfl, rfl, hemitted⟩ := h
  unfold slimRecord analyzeRecord
  cases processPacket build s.frameBuf.bytes with
  | error fault => exact .inl ⟨_, rfl, rfl⟩
  | ok r =>
    obtain ⟨outcome, cut⟩ := r
    refine .inr ⟨_, _, rfl, rfl, rfl, rfl, rfl, ?_⟩
    dsimp only at hemitted ⊢
    rw [WriteBatch.emitted_writeRecord, List.length_append, List.length_append, hemitted,
      length_writeU32_fields e hhdr]
    cases outcome <;> dsimp only [frameOut] <;> omega

/-- One round of both loops. -/
theorem analyzeRound_of_slimRound (build : Build) (e : Endian) {s : SlimState} {a : AnalyzeState}
    (h : Tracks s a) :
    (∃ failure, slimRound build e s = .error failure ∧ analyzeRound build e a = .error failure) ∨
    (slimRound build e s = .ok none ∧ analyzeRound build e a = .ok none) ∨
    ∃ s' a', slimRound build e s = .ok (some s') ∧ analyzeRound build e a = .ok (some a') ∧
      Tracks s' a' := by
  obtain ⟨input, frameBuf, bodyBytes, stats⟩ := a
  obtain ⟨rfl, rfl, rfl, hemitted⟩ := h
  unfold slimRound analyzeRound
  by_cases hlen : pcapRecHdrLen ≤ s.input.length
  · have hhdr : (s.input.take pcapRecHdrLen).length = 16 := by
      rw [List.length_take, Nat.min_eq_left hlen]
      rfl
    rw [readExact_ok hlen]
    dsimp only
    generalize (e.readU32 (((s.input.take pcapRecHdrLen).take 12).drop 8)).toNat = inclLen
    cases readFrameInto (s.input.drop pcapRecHdrLen) s.frameBuf inclLen with
    | error err => exact .inl ⟨_, rfl, rfl⟩
    | ok r =>
      obtain ⟨frameBuf, input⟩ := r
      have htracks : Tracks
          { s with input, frameBuf, batch := (s.batch.account pcapRecHdrLen).account inclLen }
          { input, frameBuf, bodyBytes, stats := s.stats } := ⟨rfl, rfl, rfl, hemitted⟩
      dsimp only
      rcases analyzeRecord_of_slimRecord build e hhdr htracks with
        ⟨failure, hslim, hanalyze⟩ | ⟨s', a', hslim, hanalyze, htracks'⟩
      · exact .inl ⟨failure, by rw [hslim], by rw [hanalyze]⟩
      · exact .inr (.inr ⟨s', a', by rw [hslim], by rw [hanalyze], htracks'⟩)
  · rw [readExact_eof (Nat.not_le.mp hlen)]
    exact .inr (.inl ⟨rfl, rfl⟩)

/-- The loops, with the same fuel. -/
theorem analyzeLoop_of_slimLoop (build : Build) (e : Endian) (fuel : Nat) :
    ∀ {s : SlimState} {a : AnalyzeState}, Tracks s a →
      (∃ failure, slimLoop build e fuel s = .error failure ∧
        analyzeLoop build e fuel a = .error failure) ∨
      ∃ s' a', slimLoop build e fuel s = .ok s' ∧ analyzeLoop build e fuel a = .ok a' ∧
        Tracks s' a' := by
  induction fuel with
  | zero =>
    intro s a h
    exact .inr ⟨s, a, rfl, rfl, h⟩
  | succ fuel ih =>
    intro s a h
    rw [slimLoop, analyzeLoop]
    rcases analyzeRound_of_slimRound build e h with
      ⟨failure, hslim, hanalyze⟩ | ⟨hslim, hanalyze⟩ | ⟨s', a', hslim, hanalyze, htracks⟩
    · exact .inl ⟨failure, by rw [hslim, error_bind], by rw [hanalyze, error_bind]⟩
    · exact .inr ⟨s, a, by rw [hslim]; rfl, by rw [hanalyze]; rfl, h⟩
    · rw [hslim, hanalyze]
      exact ih htracks

/-- **The dry run reports what the slim pass reports**, and fails as it fails. -/
theorem analyzePcap_eq (build : Build) (path : String) (input : Bytes) :
    analyzePcap build path input = (slimPcap build path input).map Prod.snd := by
  unfold slimPcap analyzePcap slimPcapToWriter
  cases hheader : readGlobalHeader input path with
  | error err => rfl
  | ok found =>
    obtain ⟨e, ghdr, rest⟩ := found
    obtain ⟨-, hghdr, -⟩ := readGlobalHeader_eq_ok.mp hheader
    have hstart : Tracks (slimStart ghdr rest input.length) (analyzeStart rest input.length) := by
      refine ⟨rfl, rfl, rfl, ?_⟩
      simp only [slimStart, WriteBatch.emitted, List.append_nil]
      exact hghdr
    dsimp only
    rcases analyzeLoop_of_slimLoop build e (input.length + 1) hstart with
      ⟨failure, hslim, hanalyze⟩ | ⟨s', a', hslim, hanalyze, htracks⟩
    · rw [hslim, hanalyze]
      rfl
    · have hout : s'.batch.flush.writer.length = projectedFileSize pcapHdrLen a'.bodyBytes := by
        rw [s'.batch.flush_writer.1, htracks.emitted, projectedFileSize]
      rw [hslim, hanalyze, ok_bind, ok_bind, pure_eq_ok, pure_eq_ok, ok_bind, htracks.stats, ← hout]
      rfl

/-! ## The counter -/

/-- The counter rejects what the slim pass rejects, with the same error. -/
theorem countPackets_of_rejected {path : String} {input : Bytes} {err : PcapError}
    (hreturns : ∀ r ∈ completeRecords input, Returns build r.frame)
    (h : slimPcapToWriter build path input = .error (.error err)) :
    countPackets path input = .error err := by
  cases hheader : readGlobalHeader input path with
  | error err' =>
    rw [slimPcapToWriter, hheader] at h
    cases h
    rw [countPackets, hheader, error_bind]
  | ok found =>
    obtain ⟨e, ghdr, rest⟩ := found
    obtain ⟨hinput, -⟩ := readGlobalHeader_eq_ok.mp hheader
    obtain ⟨hsplit, hnone⟩ := splitRecords_spec e rest
    have hfuel := records_lt_fuel hinput hsplit
    rw [completeRecords_of_header hheader] at hreturns
    rw [slimPcapToWriter_of_header hheader] at h
    by_cases hshort : (splitRecords e rest).2.length < 16
    · obtain ⟨s', hs', -⟩ := slimLoop_ok build e hshort _ _
        (slimStart ghdr rest input.length) hfuel hsplit hreturns
      rw [hs'] at h
      cases h
    · rw [slimLoop_cut (by omega) hnone _ _ _ hfuel hsplit hreturns] at h
      cases h
      have hcount := countLoop_cut (by omega) hnone _ _ 0 hfuel
      rw [← hsplit] at hcount
      rw [countPackets, hheader, ok_bind]
      exact hcount

/-! ## The three passes -/

theorem length_encodeRecords_slim (build : Build) (e : Endian) (records : List Record) :
    (encodeRecords e (records.map (Record.slim build))).length ≤
      (encodeRecords e records).length := by
  induction records with
  | nil => exact Nat.le_refl _
  | cons r records ih =>
    have hframe := length_slimFrame_le build r.frame
    rw [List.map_cons, encodeRecords, encodeRecords, List.flatMap_cons, List.flatMap_cons,
      ← encodeRecords, ← encodeRecords, List.length_append, List.length_append, length_encode,
      length_encode]
    change 16 + (slimFrame build r.frame).1.length + _ ≤ _
    omega

/-- The slimmed file is no longer than the file. -/
theorem length_slim_le (build : Build) (c : PcapFile) :
    (c.slim build).bytes.length ≤ c.bytes.length := by
  have := length_encodeRecords_slim build c.endian c.records
  simp only [PcapFile.bytes, PcapFile.slim, List.length_append, List.length_nil]
  omega

/-- The dry run, the slim pass and the counter agree about a file: they reject it
with one error, or they accept it with one set of numbers that fit the output. -/
inductive PassesAgree (build : Build) (path : String) (input : Bytes) : Prop where
  | rejected (err : PcapError)
      (slim : slimPcap build path input = .error (.error err))
      (analyze : analyzePcap build path input = .error (.error err))
      (count : countPackets path input = .error err)
  | accepted (out : Bytes) (stats : SlimStats)
      (slim : slimPcap build path input = .ok (out, stats))
      (analyze : analyzePcap build path input = .ok stats)
      (inBytes : stats.inBytes = input.length)
      (outBytes : stats.outBytes = out.length)
      (shorter : stats.outBytes ≤ stats.inBytes)
      (parts : stats.truncated + stats.kept = stats.inPkts)
      (count : countPackets path input = .ok stats.inPkts)
      (countOut : ∀ path', countPackets path' out = .ok stats.inPkts)

/-- **The three passes agree** about every byte string whose frames can be processed. -/
theorem passes_agree {path : String} {input : Bytes}
    (hreturns : ∀ r ∈ completeRecords input, Returns build r.frame) :
    PassesAgree build path input := by
  have hanalyze := analyzePcap_eq build path input
  rcases slimPcapToWriter_cases build path input with
    ⟨c, rfl, hfile⟩ | ⟨-, err, herr⟩ | ⟨⟨r, hr, hnot⟩, -⟩
  · obtain ⟨b, hb, hwriter, -⟩ := slimPcapToWriter_file path c hfile
    have hslim : slimPcap build path c.bytes =
        .ok (b.writer, { statsOf build c.bytes.length c.records with
          outBytes := b.writer.length }) := by
      rw [slimPcap, hb]
      rfl
    have hcut := cutCount_le build c.records
    rw [hslim] at hanalyze
    refine .accepted _ _ hslim hanalyze rfl rfl ?_ ?_ (countPackets_file c) fun path' => ?_
    · rw [hwriter]
      exact length_slim_le build c
    · simp only [statsOf]
      omega
    · rw [hwriter, countPackets_file, PcapFile.slim, List.length_map]
      rfl
  · have hslim : slimPcap build path input = .error (.error err) := by
      rw [slimPcap, herr]
      rfl
    rw [hslim] at hanalyze
    exact .rejected err hslim hanalyze (countPackets_of_rejected hreturns herr)
  · exact absurd (hreturns r hr) hnot

/-- The passes over a file with one record, which is cut. -/
theorem passes_agree_oneRecordFile :
    ∃ out stats, slimPcap .release "a.pcap" oneRecordFile = .ok (out, stats) ∧
      stats.truncated = 1 ∧ analyzePcap .release "a.pcap" oneRecordFile = .ok stats ∧
      countPackets "b.pcap" out = .ok stats.inPkts := by
  have hcut : (slimPcap .release "a.pcap" oneRecordFile).map (·.2.truncated) = .ok 1 := by
    decide +kernel
  have hreturns : ∀ r ∈ completeRecords oneRecordFile, Returns .release r.frame := by
    rcases slimPcapToWriter_cases .release "a.pcap" oneRecordFile with
      ⟨c, hc, hfile⟩ | ⟨hreturns, -⟩ | ⟨-, fault, hfault⟩
    · rwa [hc, completeRecords_file]
    · exact hreturns
    · rw [slimPcap, hfault] at hcut
      cases hcut
  cases @passes_agree .release "a.pcap" _ hreturns with
  | rejected err slim =>
    rw [slim] at hcut
    cases hcut
  | accepted out stats slim analyze _ _ _ _ _ countOut =>
    rw [slim] at hcut
    exact ⟨out, stats, slim, Except.ok.inj hcut, analyze, countOut _⟩

end PcapSlim.PcapIo
