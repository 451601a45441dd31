/-
PcapSlim.WorkloadTheorems — the event lists of the passes.

Every pass is charged for what it moves (`Charged`), on every input, whether it returns
or ends early; no operation is larger than a batch or a record (`Sized`). A pass that
returns ends with a flush and moves what it read and what it wrote (`Job.Settled`).

The event lists retell the passes. That they tell the same story is
`acquired_slimPcapEvents`: the calls of `acquire_io` in them are the log that the
batch of the pass keeps.
-/
import PcapSlim.Workload
import PcapSlim.AccountTheorems
import PcapSlim.AnalyzeTheorems

namespace PcapSlim.PcapIo

open Lib.Buffer Lib.Octets Packet Limit Capture

/-! ## Event lists -/

namespace Event

/-- The bytes of an event that are, or have to be, accounted for. -/
def bytes : Event → Nat
  | moved n => n
  | call c => c.bytes
  | _ => 0

/-- The bytes that an event moves, to be accounted for. -/
def movedBytes : Event → Nat
  | moved n => n
  | _ => 0

/-- The bytes that an event moves and nobody accounts for. -/
def lostBytes : Event → Nat
  | unaccounted n => n
  | _ => 0

/-- The bytes that `acquire_io` is called for. -/
def acquired : Event → Option Nat
  | call (.acquireIo n) => some n
  | _ => none

end Event

/-- What the events move and account for. -/
def movedTotal (events : List Event) : Nat := (events.map Event.movedBytes).sum

/-- What the events move and do not account for. -/
def lostTotal (events : List Event) : Nat := (events.map Event.lostBytes).sum

/-- The calls of `acquire_io`, by their byte counts. -/
def acquired (events : List Event) : List Nat := events.filterMap Event.acquired

section Totals

variable (xs ys : List Event) (e : Event)

@[simp] theorem movedTotal_nil : movedTotal [] = 0 := rfl

@[simp] theorem lostTotal_nil : lostTotal [] = 0 := rfl

@[simp] theorem acquired_nil : acquired [] = [] := rfl

theorem movedTotal_cons : movedTotal (e :: xs) = e.movedBytes + movedTotal xs := by
  simp [movedTotal]

theorem lostTotal_cons : lostTotal (e :: xs) = e.lostBytes + lostTotal xs := by
  simp [lostTotal]

theorem acquired_cons : acquired (e :: xs) = e.acquired.toList ++ acquired xs := by
  rw [acquired, List.filterMap_cons]
  cases e.acquired <;> rfl

@[simp] theorem movedTotal_append : movedTotal (xs ++ ys) = movedTotal xs + movedTotal ys := by
  simp [movedTotal]

@[simp] theorem lostTotal_append : lostTotal (xs ++ ys) = lostTotal xs + lostTotal ys := by
  simp [lostTotal]

@[simp] theorem acquired_append : acquired (xs ++ ys) = acquired xs ++ acquired ys := by
  simp [acquired]

end Totals

section Primitives

variable (n : Nat)

@[simp] theorem movedTotal_accountIo : movedTotal (accountIo n) = n := rfl

@[simp] theorem lostTotal_accountIo : lostTotal (accountIo n) = 0 := rfl

@[simp] theorem acquired_accountIo : acquired (accountIo n) = [n] := rfl

@[simp] theorem lostTotal_flushLimits : lostTotal flushLimits = 0 := rfl

@[simp] theorem acquired_flushLimits : acquired flushLimits = [] := rfl

@[simp] theorem movedTotal_maybeCpuTick : movedTotal (maybeCpuTick n) = 0 := by
  unfold maybeCpuTick
  split <;> rfl

@[simp] theorem lostTotal_maybeCpuTick : lostTotal (maybeCpuTick n) = 0 := by
  unfold maybeCpuTick
  split <;> rfl

@[simp] theorem acquired_maybeCpuTick : acquired (maybeCpuTick n) = [] := by
  unfold maybeCpuTick
  split <;> rfl

@[simp] theorem lostTotal_unaccounted : lostTotal [.unaccounted n] = n := rfl

@[simp] theorem acquired_unaccounted : acquired [.unaccounted n] = [] := rfl

end Primitives

/-- Each read or write is followed by the call that accounts for it, and nothing else is
accounted for. -/
inductive Charged : List Event → Prop
  | nil : Charged []
  | account (n : Nat) {rest : List Event} (h : Charged rest) :
      Charged (.moved n :: .call (.acquireIo n) :: rest)
  | lose (n : Nat) {rest : List Event} (h : Charged rest) : Charged (.unaccounted n :: rest)
  | flush {rest : List Event} (h : Charged rest) : Charged (.call .flushIo :: rest)
  | cpuTick {rest : List Event} (h : Charged rest) : Charged (.cpuTick :: rest)

theorem Charged.append {xs ys : List Event} (h : Charged xs) (h' : Charged ys) :
    Charged (xs ++ ys) := by
  induction h with
  | nil => exact h'
  | account n _ ih => exact .account n ih
  | lose n _ ih => exact .lose n ih
  | flush _ ih => exact .flush ih
  | cpuTick _ ih => exact .cpuTick ih

/-- What charged events move is what they call `acquire_io` for. -/
theorem Charged.movedTotal_eq {events : List Event} (h : Charged events) :
    movedTotal events = (acquired events).sum := by
  induction h with
  | nil => rfl
  | account n _ ih =>
    simp [movedTotal_cons, acquired_cons, Event.movedBytes, Event.acquired, ih]
  | lose n _ ih => simp [movedTotal_cons, acquired_cons, Event.movedBytes, Event.acquired, ih]
  | flush _ ih => simp [movedTotal_cons, acquired_cons, Event.movedBytes, Event.acquired, ih]
  | cpuTick _ ih => simp [movedTotal_cons, acquired_cons, Event.movedBytes, Event.acquired, ih]

/-- Events that end with a flush, if there are any. -/
def EndsFlushed (events : List Event) : Prop := events = [] ∨ flushLimits <:+ events

theorem EndsFlushed.tail {e : Event} {rest : List Event} (h : EndsFlushed (e :: rest)) :
    EndsFlushed rest ∧ (e ≠ .call .flushIo → rest ≠ []) := by
  rcases h with h | h
  · cases h
  · rcases List.suffix_cons_iff.mp h with h | h
    · cases h
      exact ⟨.inl rfl, fun hne => absurd rfl hne⟩
    · refine ⟨.inr h, fun _ hnil => ?_⟩
      rw [hnil] at h
      exact absurd (List.suffix_nil.mp h) (by simp [flushLimits])

theorem EndsFlushed.append {xs ys : List Event} (h : EndsFlushed xs) (h' : EndsFlushed ys) :
    EndsFlushed (xs ++ ys) := by
  rcases h' with rfl | h'
  · rwa [List.append_nil]
  · exact .inr (h'.trans (List.suffix_append xs ys))

/-! ## Operations of a bounded size -/

/-- Charged events, none of them for more than `M` bytes. -/
structure Sized (M : Nat) (events : List Event) : Prop where
  charged : Charged events
  bounded : ∀ e ∈ events, e.bytes ≤ M

namespace Sized

variable {M : Nat}

theorem nil : Sized M [] := ⟨.nil, by simp⟩

theorem append {xs ys : List Event} (h : Sized M xs) (h' : Sized M ys) : Sized M (xs ++ ys) := by
  refine ⟨h.charged.append h'.charged, fun e he => ?_⟩
  rcases List.mem_append.mp he with he | he
  · exact h.bounded e he
  · exact h'.bounded e he

theorem accountIo {n : Nat} (h : n ≤ M) : Sized M (accountIo n) :=
  ⟨.account n .nil, by simp [PcapIo.accountIo, Event.bytes, Call.bytes, h]⟩

theorem unaccounted (n : Nat) : Sized M [.unaccounted n] :=
  ⟨.lose n .nil, by simp [Event.bytes]⟩

theorem flushLimits : Sized M flushLimits :=
  ⟨.flush .nil, by simp [PcapIo.flushLimits, Event.bytes, Call.bytes]⟩

theorem maybeCpuTick (n : Nat) : Sized M (maybeCpuTick n) := by
  unfold PcapIo.maybeCpuTick
  split
  · exact ⟨.cpuTick .nil, by simp [Event.bytes]⟩
  · exact nil

end Sized

/-! ## The reads of a round -/

section Reads

variable {e : Endian} {input : Bytes}

/-- What is in front of a loop: less than a record header, or a header whose body is cut,
or a record. -/
theorem front_cases (e : Endian) (input : Bytes) :
    input.length < 16 ∨ (16 ≤ input.length ∧ nextRecord e input = none) ∨
      ∃ r rest, nextRecord e input = some (r, rest) := by
  by_cases hlen : input.length < 16
  · exact .inl hlen
  · cases h : nextRecord e input with
    | none => exact .inr (.inl ⟨not_lt.mp hlen, rfl⟩)
    | some found => exact .inr (.inr ⟨found.1, found.2, rfl⟩)

theorem recordReads_end (h : input.length < 16) :
    recordReads e input = [.unaccounted input.length] := by
  have hlen : ¬ pcapRecHdrLen ≤ input.length := not_le.mpr h
  rw [recordReads, readEvents, if_neg hlen,
    readExact_eof (show input.length < pcapRecHdrLen from h)]
  rfl

theorem recordReads_cut (hlen : 16 ≤ input.length) (hnone : nextRecord e input = none) :
    recordReads e input = accountIo 16 ++ [.unaccounted (input.length - 16)] := by
  have hcut := lt_of_nextRecord_none hnone
  have hread : pcapRecHdrLen ≤ input.length := hlen
  rw [recordReads, readEvents, if_pos hread, readExact_ok hread]
  dsimp only [pcapRecHdrLen]
  rw [readU32_inclLen, readEvents, List.length_drop, if_neg (by omega)]

theorem recordReads_record {r : Record} {rest : Bytes} (h : nextRecord e input = some (r, rest)) :
    recordReads e input = accountIo 16 ++ accountIo r.frame.length := by
  obtain ⟨hlen, -, -, -, hframe, -⟩ := nextRecord_fields h
  have hread : pcapRecHdrLen ≤ input.length := Nat.le_of_add_right_le hlen
  have hbody : inclLenOf e input ≤ (input.drop 16).length := by
    rw [List.length_drop]
    omega
  rw [recordReads, readEvents, if_pos hread, readExact_ok hread]
  dsimp only [pcapRecHdrLen]
  rw [readU32_inclLen, readEvents, if_pos hbody, hframe, List.length_take, Nat.min_eq_left hbody]

/-- The body of a record is read into the frame buffer. -/
theorem readFrameInto_record {r : Record} {rest : Bytes} (h : nextRecord e input = some (r, rest))
    (buf : FrameBuf) : ∃ frameBuf : FrameBuf, frameBuf.bytes = r.frame ∧
      readFrameInto (input.drop 16) buf (inclLenOf e input) = .ok (frameBuf, rest) := by
  obtain ⟨hlen, -, -, -, hframe, hrest⟩ := nextRecord_fields h
  have hbody : inclLenOf e input ≤ (input.drop 16).length := by
    rw [List.length_drop]
    omega
  obtain ⟨frameBuf, hbuf, hbytes⟩ := readFrameInto_ok buf hbody
  rw [List.drop_drop, ← hrest] at hbuf
  exact ⟨frameBuf, hbytes.trans hframe.symm, hbuf⟩

/-- The packet counter skips it. -/
theorem skipPacketBody_record {r : Record} {rest : Bytes} (h : nextRecord e input = some (r, rest)) :
    skipPacketBody (inclLenOf e input) (input.drop 16) (inclLenOf e input) = .ok rest := by
  obtain ⟨hlen, -, -, -, -, hrest⟩ := nextRecord_fields h
  rw [skipPacketBody_ok _ _ _ (Nat.le_refl _) (by rw [List.length_drop]; omega), List.drop_drop,
    ← hrest]

/-- Each complete record of the input is at most `M` bytes long. -/
def Fits (M : Nat) (e : Endian) (input : Bytes) : Prop :=
  ∀ r ∈ (splitRecords e input).1, pcapRecHdrLen + r.frame.length ≤ M

theorem Fits.next {M : Nat} {r : Record} {rest : Bytes} (h : Fits M e input)
    (hnext : nextRecord e input = some (r, rest)) :
    pcapRecHdrLen + r.frame.length ≤ M ∧ Fits M e rest := by
  have hsplit : (splitRecords e input).1 = r :: (splitRecords e rest).1 := by
    rw [nextRecord_eq_some hnext, splitRecords_cons]
  rw [Fits, hsplit, List.forall_mem_cons] at h
  exact h

theorem sized_recordReads {M : Nat} (hM : pcapHdrLen ≤ M) (h : Fits M e input) :
    Sized M (recordReads e input) := by
  have hhdr : 16 ≤ M := Nat.le_trans (by decide) hM
  rcases front_cases e input with hlen | ⟨hlen, hnone⟩ | ⟨r, rest, hnext⟩
  · rw [recordReads_end hlen]
    exact .unaccounted _
  · rw [recordReads_cut hlen hnone]
    exact .append (.accountIo hhdr) (.unaccounted _)
  · rw [recordReads_record hnext]
    have hframe := (h.next hnext).1
    exact .append (.accountIo hhdr) (.accountIo (Nat.le_of_add_left_le hframe))

end Reads

/-! ## The slim pass -/

section Batch

variable {M : Nat} {b : WriteBatch}

theorem sized_flushEvents (h : b.buf.length ≤ M) : Sized M b.flushEvents := by
  unfold WriteBatch.flushEvents
  split
  · exact .nil
  · exact .accountIo h

theorem sized_writeRecordEvents (h : b.buf.length ≤ M) (frame : Bytes) :
    Sized M (b.writeRecordEvents frame) := by
  unfold WriteBatch.writeRecordEvents
  dsimp only
  split
  · exact sized_flushEvents h
  · exact .nil

/-- A flush is in the log as it is in the events. -/
theorem accounted_flush (b : WriteBatch) :
    b.flush.accounted = b.accounted ++ acquired b.flushEvents := by
  unfold WriteBatch.flush WriteBatch.flushEvents
  split <;> simp

theorem accounted_writeRecord (b : WriteBatch) (recHdr frame : Bytes) :
    (b.writeRecord recHdr frame).accounted =
      b.accounted ++ acquired (b.writeRecordEvents frame) := by
  unfold WriteBatch.writeRecord WriteBatch.writeRecordEvents
  dsimp only
  split
  · exact accounted_flush b
  · simp

/-- The batch outgrows its capacity only by a record that is larger. -/
theorem length_writeRecord_le (hM : writeBatchCap ≤ M) {recHdr frame : Bytes}
    (hhdr : recHdr.length = pcapRecHdrLen) (hframe : pcapRecHdrLen + frame.length ≤ M) :
    (b.writeRecord recHdr frame).buf.length ≤ M := by
  unfold WriteBatch.writeRecord
  dsimp only
  split
  · rw [b.flush_writer.2, List.nil_append, List.length_append, hhdr]
    exact hframe
  · next hfits =>
    rw [Bool.and_eq_true, not_and, Bool.not_eq_true', decide_eq_true_eq, not_lt] at hfits
    rw [List.length_append, List.length_append, hhdr]
    by_cases hempty : b.buf.isEmpty
    · rw [List.isEmpty_iff.mp hempty, List.length_nil]
      omega
    · have hle := hfits (Bool.eq_false_of_not_eq_true hempty)
      omega

end Batch

section Slim

variable {build : Build} {e : Endian} {M : Nat}

/-- A round that goes on: the record that it reads, and what it leaves behind. -/
structure RoundOf (build : Build) (e : Endian) (s s' : SlimState) (r : Record) : Prop where
  next : nextRecord e s.input = some (r, s'.input)
  batch : ∃ hdr : Bytes, hdr.length = pcapRecHdrLen ∧ s'.batch =
    ((s.batch.account 16).account r.frame.length).writeRecord hdr (slimFrame build r.frame).1
  events : slimRoundEvents build e s = recordReads e s.input ++
    (s.batch.writeRecordEvents (slimFrame build r.frame).1 ++ maybeCpuTick (s.stats.inPkts + 1))

/-- A round that does not go on only reads. -/
theorem slimRound_events (build : Build) (e : Endian) (s : SlimState) :
    (slimRoundEvents build e s = recordReads e s.input ∧
      ((slimRound build e s = .ok none ∧ s.input.length < 16) ∨
        ∃ failure, slimRound build e s = .error failure)) ∨
    ∃ s' r, slimRound build e s = .ok (some s') ∧ RoundOf build e s s' r := by
  rcases front_cases e s.input with hlen | ⟨hlen, hnone⟩ | ⟨r, rest, hnext⟩
  · refine .inl ⟨?_, .inl ⟨slimRound_end hlen, hlen⟩⟩
    rw [slimRoundEvents, readExact_eof (show s.input.length < pcapRecHdrLen from hlen)]
    exact List.append_nil _
  · refine .inl ⟨?_, .inr ⟨_, slimRound_cut hlen hnone⟩⟩
    have hcut := lt_of_nextRecord_none hnone
    rw [slimRoundEvents, readExact_ok (show pcapRecHdrLen ≤ s.input.length from hlen)]
    dsimp only [pcapRecHdrLen]
    rw [readU32_inclLen, readFrameInto_eof (by rw [List.length_drop]; omega)]
    exact List.append_nil _
  · obtain ⟨hlen, -, -, -, hframe, -⟩ := nextRecord_fields hnext
    have hread : pcapRecHdrLen ≤ s.input.length := Nat.le_of_add_right_le hlen
    obtain ⟨buf, hbytes, hbuf⟩ := readFrameInto_record hnext s.frameBuf
    have hincl : r.frame.length = inclLenOf e s.input := by
      rw [hframe, List.length_take, List.length_drop]
      omega
    have hevents : slimRoundEvents build e s = recordReads e s.input ++
        slimRecordEvents build { s with input := rest, frameBuf := buf } := by
      rw [slimRoundEvents, readExact_ok hread]
      dsimp only [pcapRecHdrLen]
      rw [readU32_inclLen, hbuf]
    rw [slimRecordEvents] at hevents
    dsimp only at hevents
    rw [slimRound, readExact_ok hread]
    dsimp only [pcapRecHdrLen]
    rw [readU32_inclLen, hbuf]
    dsimp only
    rw [slimRecord]
    dsimp only
    rw [hbytes] at hevents ⊢
    cases hpacket : processPacket build r.frame with
    | error fault =>
      rw [hpacket] at hevents
      exact .inl ⟨hevents.trans (List.append_nil _), .inr ⟨_, rfl⟩⟩
    | ok found =>
      obtain ⟨outcome, cut⟩ := found
      have hslim : (slimFrame build r.frame).1 = frameOut outcome r.frame := by
        rw [slimFrame, hpacket]
        cases outcome <;> rfl
      have hhdr : (s.input.take 16).length = 16 := by rw [List.length_take]; omega
      rw [hpacket] at hevents
      refine .inr ⟨_, r, rfl, hnext, ⟨?hdr, ?len, ?batch⟩, hslim ▸ hevents⟩
      case batch => rw [hincl, hslim]
      case len => exact length_writeU32_fields e hhdr _ _ _ _

/-- A flush in the loop is of what the batch held, never of more than `M` bytes. -/
theorem sized_slimLoopEvents (build : Build) (hM : writeBatchCap ≤ M) (fuel : Nat) :
    ∀ s : SlimState, Fits M e s.input → s.batch.buf.length ≤ M →
      Sized M (slimLoopEvents build e fuel s) ∧
        ∀ s', slimLoop build e fuel s = .ok s' → s'.batch.buf.length ≤ M := by
  induction fuel with
  | zero =>
    intro s _ hbuf
    refine ⟨.nil, fun s' h => ?_⟩
    cases h
    exact hbuf
  | succ fuel ih =>
    intro s hfits hbuf
    have hreads : Sized M (recordReads e s.input) :=
      sized_recordReads (Nat.le_trans (by decide) hM) hfits
    rw [slimLoopEvents, slimLoop]
    obtain ⟨hevents, ⟨hround, -⟩ | ⟨failure, hround⟩⟩ | ⟨s', r, hround, hof⟩ :=
      slimRound_events build e s
    · rw [hevents, hround]
      refine ⟨hreads.append .nil, fun s' h => ?_⟩
      cases h
      exact hbuf
    · rw [hevents, hround]
      exact ⟨hreads.append .nil, fun s' h => by cases h⟩
    · obtain ⟨hframe, hfits'⟩ := hfits.next hof.next
      obtain ⟨hdr, hhdr, hbatch⟩ := hof.batch
      have hbuf' : s'.batch.buf.length ≤ M := by
        have hslim := length_slimFrame_le build r.frame
        rw [hbatch]
        exact length_writeRecord_le hM hhdr (by omega)
      obtain ⟨hloop, hlast⟩ := ih s' hfits' hbuf'
      rw [hof.events, hround]
      exact ⟨(hreads.append ((sized_writeRecordEvents hbuf _).append (.maybeCpuTick _))).append hloop,
        hlast⟩

/-- A loop that returns: it ends with less than a record header, or goes on behind a record. -/
theorem slimLoop_cases {fuel : Nat} {s s' : SlimState} (h : slimLoop build e (fuel + 1) s = .ok s') :
    (s' = s ∧ s.input.length < 16 ∧
      slimLoopEvents build e (fuel + 1) s = [.unaccounted s.input.length]) ∨
    ∃ next r, RoundOf build e s next r ∧ slimLoop build e fuel next = .ok s' ∧
      slimLoopEvents build e (fuel + 1) s =
        slimRoundEvents build e s ++ slimLoopEvents build e fuel next := by
  obtain ⟨next, hround, h⟩ := bind_eq_ok.mp h
  rw [slimLoopEvents, hround]
  obtain ⟨hevents, ⟨hnone, hlen⟩ | ⟨failure, hfailure⟩⟩ | ⟨next', r, hsome, hof⟩ :=
    slimRound_events build e s
  · cases hnone.symm.trans hround
    cases h
    refine .inl ⟨rfl, hlen, ?_⟩
    rw [hevents, recordReads_end hlen]
    exact List.append_nil _
  · cases hfailure.symm.trans hround
  · cases hsome.symm.trans hround
    exact .inr ⟨next', r, hof, h, rfl⟩

/-- The calls of `acquire_io` are the log that the batch keeps. -/
theorem accounted_slimLoop (fuel : Nat) : ∀ {s s' : SlimState}, slimLoop build e fuel s = .ok s' →
    s'.batch.accounted = s.batch.accounted ++ acquired (slimLoopEvents build e fuel s) := by
  induction fuel with
  | zero =>
    intro s s' h
    cases h
    exact (List.append_nil _).symm
  | succ fuel ih =>
    intro s s' h
    obtain ⟨rfl, -, hevents⟩ | ⟨next, r, hof, hloop, hevents⟩ := slimLoop_cases h
    · rw [hevents]
      simp
    · obtain ⟨hdr, -, hbatch⟩ := hof.batch
      rw [ih hloop, hbatch, accounted_writeRecord, hevents, hof.events, recordReads_record hof.next]
      simp [WriteBatch.account, WriteBatch.writeRecordEvents, WriteBatch.flushEvents, pcapRecHdrLen]

/-- Only what is behind the last record is lost. -/
theorem lost_slimLoop (fuel : Nat) : ∀ {s s' : SlimState}, s.input.length < fuel →
    slimLoop build e fuel s = .ok s' →
    lostTotal (slimLoopEvents build e fuel s) = s'.input.length ∧ s'.input.length < 16 := by
  induction fuel with
  | zero => exact fun hfuel => absurd hfuel (Nat.not_lt_zero _)
  | succ fuel ih =>
    intro s s' hfuel h
    obtain ⟨rfl, hlen, hevents⟩ | ⟨next, r, hof, hloop, hevents⟩ := slimLoop_cases h
    · rw [hevents]
      exact ⟨by simp, hlen⟩
    · have hless := nextRecord_length hof.next
      obtain ⟨hlost, hlen⟩ := ih (by omega) hloop
      refine ⟨?_, hlen⟩
      rw [hevents, hof.events, recordReads_record hof.next]
      simp only [lostTotal_append, hlost, lostTotal_accountIo, lostTotal_maybeCpuTick,
        WriteBatch.writeRecordEvents, WriteBatch.flushEvents]
      split
      · split <;> simp
      · simp

/-! ### The whole pass -/

theorem globalHeaderEvents_ok {path : String} {input ghdr rest : Bytes}
    (h : readGlobalHeader input path = .ok (e, ghdr, rest)) :
    globalHeaderEvents path input = accountIo pcapHdrLen := by
  rw [globalHeaderEvents, h]

theorem sized_globalHeaderEvents (hM : pcapHdrLen ≤ M) (path : String) (input : Bytes) :
    Sized M (globalHeaderEvents path input) := by
  unfold globalHeaderEvents
  split
  · exact .unaccounted _
  · exact .accountIo hM

/-- Every complete record of a file is at most `M` bytes long. -/
def FileFits (M : Nat) (input : Bytes) : Prop :=
  ∀ r ∈ completeRecords input, pcapRecHdrLen + r.frame.length ≤ M

/-- Records have a 32-bit length. -/
theorem fileFits_max (input : Bytes) : FileFits (2 ^ 32 + 16) input := by
  intro r _
  have hlt := r.fits
  simp only [pcapRecHdrLen]
  omega

theorem FileFits.behind {path : String} {input ghdr rest : Bytes} (h : FileFits M input)
    (hheader : readGlobalHeader input path = .ok (e, ghdr, rest)) : Fits M e rest := by
  rwa [FileFits, completeRecords_of_header hheader] at h

theorem sized_slimPcapEvents (hM : writeBatchCap ≤ M) (path : String) {input : Bytes}
    (hfits : FileFits M input) : Sized M (slimPcapEvents build path input) := by
  have hhdr : pcapHdrLen ≤ M := Nat.le_trans (by decide) hM
  refine (sized_globalHeaderEvents hhdr path input).append ?_
  cases hheader : readGlobalHeader input path with
  | error err => exact .nil
  | ok found =>
    obtain ⟨e, ghdr, rest⟩ := found
    obtain ⟨hloop, hlast⟩ := sized_slimLoopEvents build hM (input.length + 1)
      (slimStart ghdr rest input.length) (hfits.behind hheader) (Nat.zero_le M)
    refine ((Sized.accountIo hhdr).append hloop).append ?_
    split
    · exact .nil
    · next s hs => exact ((sized_flushEvents (hlast s hs)).append .flushLimits).append .flushLimits

/-- The events of a pass that returns. -/
theorem slimPcapEvents_ok {path : String} {input ghdr rest : Bytes} {s : SlimState}
    (hheader : readGlobalHeader input path = .ok (e, ghdr, rest))
    (hs : slimLoop build e (input.length + 1) (slimStart ghdr rest input.length) = .ok s) :
    slimPcapEvents build path input = accountIo pcapHdrLen ++ (accountIo pcapHdrLen ++
      slimLoopEvents build e (input.length + 1) (slimStart ghdr rest input.length) ++
        (s.batch.flushEvents ++ flushLimits ++ flushLimits)) := by
  rw [slimPcapEvents, globalHeaderEvents_ok hheader, hheader]
  dsimp only
  rw [hs]

/-- The pass calls `acquire_io` for what its batch has in the log. -/
theorem acquired_slimPcapEvents {path : String} {input : Bytes} {b : WriteBatch} {stats : SlimStats}
    (h : slimPcapToWriter build path input = .ok (b, stats)) :
    acquired (slimPcapEvents build path input) = b.accounted := by
  unfold slimPcapToWriter at h
  split at h
  · cases h
  · next e ghdr rest hheader =>
    obtain ⟨s, hs, h⟩ := bind_eq_ok.mp h
    cases h
    rw [slimPcapEvents_ok hheader hs, accounted_flush, accounted_slimLoop _ hs]
    simp [slimStart]

end Slim

/-! ## Passes that return -/

/-- Events that move `moved` bytes, lose `lost` and end with a flush. -/
structure Settled (moved lost : Nat) (events : List Event) : Prop where
  moved_eq : movedTotal events = moved
  lost_eq : lostTotal events = lost
  flushed : flushLimits <:+ events

namespace Settled

variable {moved lost : Nat} {events : List Event}

theorem append_left (h : Settled moved lost events) (before : List Event) :
    Settled (movedTotal before + moved) (lostTotal before + lost) (before ++ events) where
  moved_eq := by rw [movedTotal_append, h.moved_eq]
  lost_eq := by rw [lostTotal_append, h.lost_eq]
  flushed := h.flushed.trans (List.suffix_append before events)

/-- A loop that finds less than a record header. -/
theorem tail (n : Nat) : Settled 0 n ([.unaccounted n] ++ flushLimits) :=
  ⟨rfl, rfl, List.suffix_append _ _⟩

/-- A loop that finds a record first. -/
theorem record (h : Settled moved lost events) (e : Endian) (r : Record) (pktIndex : Nat) :
    Settled ((r.encode e).length + moved) lost
      ((accountIo 16 ++ accountIo r.frame.length) ++ (maybeCpuTick pktIndex ++ events)) := by
  have hall := (h.append_left (maybeCpuTick pktIndex)).append_left
    (accountIo 16 ++ accountIo r.frame.length)
  rw [length_encode]
  simpa using hall

end Settled

section Returning

variable {build : Build} {e : Endian} {tail : Bytes}

theorem settled_countLoopEvents (htail : tail.length < 16) (records : List Record) :
    ∀ fuel count, records.length < fuel →
      Settled (encodeRecords e records).length tail.length
        (countLoopEvents e fuel (encodeRecords e records ++ tail) count) := by
  induction records with
  | nil =>
    intro fuel count hfuel
    obtain ⟨more, rfl⟩ := fuel_eq_of_lt hfuel
    change Settled 0 tail.length (countLoopEvents e (more + 1) tail count)
    rw [countLoopEvents, recordReads_end htail,
      readExact_eof (show tail.length < pcapRecHdrLen from htail)]
    exact .tail tail.length
  | cons r records ih =>
    intro fuel count hfuel
    cases fuel with
    | zero => exact absurd hfuel (Nat.not_lt_zero _)
    | succ fuel =>
      have hnext := nextRecord_encodeRecords e r records tail
      have hlen := (nextRecord_fields hnext).1
      rw [countLoopEvents, recordReads_record hnext,
        readExact_ok (show pcapRecHdrLen ≤ _ from Nat.le_of_add_right_le hlen)]
      dsimp only [pcapRecHdrLen]
      rw [readU32_inclLen, skipPacketBody_record hnext]
      have hsettled := (ih fuel (count + 1) (Nat.lt_of_succ_lt_succ hfuel)).record e r (count + 1)
      rwa [← List.length_append] at hsettled

/-- A round of the dry run on a record. -/
theorem analyzeRound_record (build : Build) {s : AnalyzeState} {r : Record} {rest : Bytes}
    (hnext : nextRecord e s.input = some (r, rest)) :
    ∃ frameBuf : FrameBuf, frameBuf.bytes = r.frame ∧
      analyzeRound build e s =
        (analyzeRecord build { s with input := rest, frameBuf }).map some := by
  have hlen := (nextRecord_fields hnext).1
  obtain ⟨buf, hbytes, hbuf⟩ := readFrameInto_record hnext s.frameBuf
  refine ⟨buf, hbytes, ?_⟩
  rw [analyzeRound, readExact_ok (show pcapRecHdrLen ≤ _ from Nat.le_of_add_right_le hlen)]
  dsimp only [pcapRecHdrLen]
  rw [readU32_inclLen, hbuf]
  dsimp only
  cases analyzeRecord build { s with input := rest, frameBuf := buf } <;> rfl

theorem analyzeRecord_input {s s' : AnalyzeState} (h : analyzeRecord build s = .ok s') :
    s'.input = s.input := by
  unfold analyzeRecord at h
  split at h
  · cases h
  · cases h
    rfl

theorem settled_analyzeLoopEvents (htail : tail.length < 16) (records : List Record) :
    ∀ (fuel : Nat) (s : AnalyzeState), records.length < fuel →
      s.input = encodeRecords e records ++ tail → (∀ r ∈ records, Returns build r.frame) →
      Settled (encodeRecords e records).length tail.length (analyzeLoopEvents build e fuel s) := by
  induction records with
  | nil =>
    intro fuel s hfuel hinput _
    obtain ⟨more, rfl⟩ := fuel_eq_of_lt hfuel
    have hshort : s.input.length < pcapRecHdrLen := by rw [hinput]; exact htail
    change Settled 0 tail.length (analyzeLoopEvents build e (more + 1) s)
    rw [analyzeLoopEvents, recordReads_end hshort, analyzeRound, readExact_eof hshort, hinput]
    exact .tail tail.length
  | cons r records ih =>
    intro fuel s hfuel hinput hreturns
    cases fuel with
    | zero => exact absurd hfuel (Nat.not_lt_zero _)
    | succ fuel =>
      have hnext := nextRecord_encodeRecords e r records tail
      rw [← hinput] at hnext
      obtain ⟨hhere, hbehind⟩ := List.forall_mem_cons.mp hreturns
      obtain ⟨frameBuf, hframe, hround⟩ := analyzeRound_record build hnext
      obtain ⟨⟨outcome, cut⟩, hpacket⟩ := hhere
      obtain ⟨s', hs'⟩ : ∃ s', analyzeRecord build
          { s with input := encodeRecords e records ++ tail, frameBuf } = .ok s' := by
        unfold analyzeRecord
        dsimp only
        rw [hframe, hpacket]
        exact ⟨_, rfl⟩
      have hinput' := analyzeRecord_input hs'
      rw [hs'] at hround
      change analyzeRound build e s = .ok (some s') at hround
      rw [analyzeLoopEvents, recordReads_record hnext, hround]
      have hsettled :=
        (ih fuel s' (Nat.lt_of_succ_lt_succ hfuel) hinput' hbehind).record e r s'.stats.inPkts
      rwa [← List.length_append] at hsettled

end Returning

/-! ## The other passes, on any input -/

section Readers

variable {build : Build} {e : Endian} {M : Nat}

theorem sized_countLoopEvents (hM : pcapHdrLen ≤ M) (fuel : Nat) : ∀ input count, Fits M e input →
    Sized M (countLoopEvents e fuel input count) := by
  induction fuel with
  | zero => exact fun _ _ _ => .nil
  | succ fuel ih =>
    intro input count hfits
    rw [countLoopEvents]
    refine (sized_recordReads hM hfits).append ?_
    rcases front_cases e input with hlen | ⟨hlen, hnone⟩ | ⟨r, rest, hnext⟩
    · rw [readExact_eof (show input.length < pcapRecHdrLen from hlen)]
      exact .flushLimits
    · have hcut := lt_of_nextRecord_none hnone
      rw [readExact_ok (show pcapRecHdrLen ≤ input.length from hlen)]
      dsimp only [pcapRecHdrLen]
      rw [readU32_inclLen, skipPacketBody_eof _ _ _ (Nat.le_refl _) (by rw [List.length_drop]; omega)]
      exact .nil
    · have hlen := (nextRecord_fields hnext).1
      rw [readExact_ok (show pcapRecHdrLen ≤ _ from Nat.le_of_add_right_le hlen)]
      dsimp only [pcapRecHdrLen]
      rw [readU32_inclLen, skipPacketBody_record hnext]
      exact (Sized.maybeCpuTick _).append (ih rest (count + 1) (hfits.next hnext).2)

theorem sized_countEvents (hM : pcapHdrLen ≤ M) (path : String) {input : Bytes}
    (hfits : FileFits M input) : Sized M (countEvents path input) := by
  refine (sized_globalHeaderEvents hM path input).append ?_
  split
  · exact .nil
  · next hheader => exact sized_countLoopEvents hM _ _ _ (hfits.behind hheader)

theorem sized_analyzeLoopEvents (hM : pcapHdrLen ≤ M) (fuel : Nat) : ∀ s : AnalyzeState,
    Fits M e s.input → Sized M (analyzeLoopEvents build e fuel s) := by
  induction fuel with
  | zero => exact fun _ _ => .nil
  | succ fuel ih =>
    intro s hfits
    rw [analyzeLoopEvents]
    refine (sized_recordReads hM hfits).append ?_
    cases hround : analyzeRound build e s with
    | error failure => exact .nil
    | ok next =>
      cases next with
      | none => exact .flushLimits
      | some s' =>
        refine (Sized.maybeCpuTick _).append (ih s' ?_)
        rcases front_cases e s.input with hlen | ⟨hlen, hnone⟩ | ⟨r, rest, hnext⟩
        · rw [analyzeRound, readExact_eof (show s.input.length < pcapRecHdrLen from hlen)] at hround
          cases hround
        · have hcut := lt_of_nextRecord_none hnone
          rw [analyzeRound, readExact_ok (show pcapRecHdrLen ≤ s.input.length from hlen)] at hround
          dsimp only [pcapRecHdrLen] at hround
          rw [readU32_inclLen, readFrameInto_eof (by rw [List.length_drop]; omega)] at hround
          cases hround
        · obtain ⟨frameBuf, -, hrecord⟩ := analyzeRound_record build hnext
          rw [hround] at hrecord
          cases hs : analyzeRecord build { s with input := rest, frameBuf } with
          | error failure =>
            rw [hs] at hrecord
            cases hrecord
          | ok s'' =>
            rw [hs] at hrecord
            cases hrecord
            rw [analyzeRecord_input hs]
            exact (hfits.next hnext).2

theorem sized_analyzeEvents (hM : pcapHdrLen ≤ M) (path : String) {input : Bytes}
    (hfits : FileFits M input) : Sized M (analyzeEvents build path input) := by
  refine (sized_globalHeaderEvents hM path input).append ?_
  split
  · exact .nil
  · next hheader => exact sized_analyzeLoopEvents hM _ _ (hfits.behind hheader)

end Readers

/-! ## Files -/

/-- The output of the slim pass on the file, empty if it fails. -/
def Job.output (job : Job) : Bytes :=
  match slimPcap job.build job.path job.input with
  | .error _ => []
  | .ok (out, _) => out

/-- What goes over the disk for a file on which the pass returns: it is read, and its
output is written and read once more. -/
def Job.traffic (job : Job) : Nat :=
  if job.checkOnly then job.input.length else job.input.length + 2 * job.output.length

/-- What the slim pass returns on a file, and the file. -/
theorem slimPcap_eq_ok {build : Build} {path : String} {input out : Bytes} {stats : SlimStats}
    (h : slimPcap build path input = .ok (out, stats)) :
    ∃ (c : PcapFile) (b : WriteBatch) (stats' : SlimStats), input = c.bytes ∧
      (∀ r ∈ c.records, Returns build r.frame) ∧ out = (c.slim build).bytes ∧ b.writer = out ∧
      slimPcapToWriter build path input = .ok (b, stats') := by
  obtain ⟨⟨b, stats'⟩, hpass, h⟩ := bind_eq_ok.mp h
  cases h
  obtain ⟨c, rfl, hreturns, hwriter, -, -⟩ := slimPcapToWriter_eq_ok hpass
  exact ⟨c, b, stats', rfl, hreturns, hwriter, rfl, hpass⟩

/-- The slimmed records are no longer. -/
theorem FileFits.slim {build : Build} {M : Nat} {c : PcapFile} (h : FileFits M c.bytes) :
    FileFits M (c.slim build).bytes := by
  rw [FileFits, completeRecords_file] at h ⊢
  intro r hr
  obtain ⟨r', hr', rfl⟩ := List.mem_map.mp hr
  have hslim := length_slimFrame_le build r'.frame
  have hfits := h r' hr'
  change pcapRecHdrLen + (slimFrame build r'.frame).1.length ≤ M
  omega

/-- **Whatever a file holds**, it is charged for what is moved, in operations no larger than
a batch or its largest record. -/
theorem Job.sized {M : Nat} (hM : writeBatchCap ≤ M) {job : Job} (hfits : FileFits M job.input) :
    Sized M job.events := by
  have hhdr : pcapHdrLen ≤ M := Nat.le_trans (by decide) hM
  unfold Job.events
  split
  · exact sized_analyzeEvents hhdr _ hfits
  · refine (sized_slimPcapEvents hM _ hfits).append ?_
    split
    · exact .nil
    · next hpass =>
      obtain ⟨c, -, -, hinput, -, rfl, -⟩ := slimPcap_eq_ok hpass
      rw [hinput] at hfits
      exact sized_countEvents hhdr _ hfits.slim

theorem settled_countEvents (path : String) (c : PcapFile) :
    Settled (24 + (encodeRecords c.endian c.records).length) c.tail.length
      (countEvents path c.bytes) := by
  have hheader := readGlobalHeader_file c path
  have hloop := settled_countLoopEvents (e := c.endian) c.tail_lt c.records (c.bytes.length + 1) 0
    (records_lt_fuel_file c)
  rw [countEvents, globalHeaderEvents_ok hheader, hheader]
  simpa [pcapHdrLen] using hloop.append_left (accountIo pcapHdrLen)

theorem settled_analyzeEvents {build : Build} (path : String) (c : PcapFile)
    (hreturns : ∀ r ∈ c.records, Returns build r.frame) :
    Settled (24 + (encodeRecords c.endian c.records).length) c.tail.length
      (analyzeEvents build path c.bytes) := by
  have hheader := readGlobalHeader_file c path
  have hloop := settled_analyzeLoopEvents (e := c.endian) c.tail_lt c.records (c.bytes.length + 1)
    (analyzeStart (encodeRecords c.endian c.records ++ c.tail) c.bytes.length)
    (records_lt_fuel_file c) rfl hreturns
  rw [analyzeEvents, globalHeaderEvents_ok hheader, hheader]
  simpa [pcapHdrLen] using hloop.append_left (accountIo pcapHdrLen)

/-- The slim pass moves what it reads and what it writes. -/
theorem settled_slimPcapEvents {build : Build} (path : String) (c : PcapFile)
    (hreturns : ∀ r ∈ c.records, Returns build r.frame) :
    Settled (24 + (encodeRecords c.endian c.records).length + (c.slim build).bytes.length)
      c.tail.length (slimPcapEvents build path c.bytes) := by
  obtain ⟨s, hs, htail, -, -⟩ := slimLoop_ok build c.endian c.tail_lt c.records
    (c.bytes.length + 1) (fileStart c) (records_lt_fuel_file c) rfl hreturns
  obtain ⟨b, hpass, hwriter, -⟩ := slimPcapToWriter_file path c hreturns
  obtain ⟨charges, bytesRead, hledger, hwhole⟩ := balanced_of_run (run_of_slimLoop _ hs)
  have hheader := readGlobalHeader_file c path
  have hb : b = s.batch.flush := by
    have hpass' := hpass
    rw [slimPcapToWriter_of_header hheader] at hpass'
    change slimLoop build c.endian (c.bytes.length + 1) (fileStart c) >>= _ = _ at hpass'
    rw [hs] at hpass'
    exact (Prod.mk.inj (Except.ok.inj hpass')).1.symm
  have hread : bytesRead.length = 24 + (encodeRecords c.endian c.records).length := by
    rw [htail, PcapFile.bytes] at hwhole
    rw [List.append_cancel_right hwhole, List.length_append, c.magic.1]
  have hsized : Sized (2 ^ 32 + 16) (slimPcapEvents build path c.bytes) :=
    sized_slimPcapEvents (by decide) path (fileFits_max c.bytes)
  constructor
  · rw [hsized.charged.movedTotal_eq, acquired_slimPcapEvents hpass, hb, hledger.flush.sum, hread,
      ← hb, hwriter]
  · have hrest : (fileStart c).input.length < c.bytes.length + 1 := by
      simp only [fileStart, slimStart, PcapFile.bytes, List.length_append]
      omega
    obtain ⟨hlost, -⟩ := lost_slimLoop _ hrest hs
    have hflush : lostTotal s.batch.flushEvents = 0 := by
      unfold WriteBatch.flushEvents
      split <;> rfl
    have hloop : lostTotal (slimLoopEvents build c.endian (c.bytes.length + 1)
        (slimStart c.ghdr (encodeRecords c.endian c.records ++ c.tail) c.bytes.length)) =
          c.tail.length := hlost.trans (congrArg List.length htail)
    rw [slimPcapEvents_ok hheader hs]
    simp [hloop, hflush]
  · rw [slimPcapEvents_ok hheader hs]
    exact ((List.suffix_append _ _).trans (List.suffix_append _ _)).trans (List.suffix_append _ _)

/-- **A file on which the pass returns**: every byte that goes over the disk is charged for,
but for those behind its last record, and the limits are flushed at the end. -/
theorem Job.settled {job : Job} {out : Bytes} {stats : SlimStats}
    (h : slimPcap job.build job.path job.input = .ok (out, stats)) :
    ∃ moved lost, Settled moved lost job.events ∧ moved + lost = job.traffic ∧ lost < 16 := by
  obtain ⟨c, -, -, hinput, hreturns, hout, -, -⟩ := slimPcap_eq_ok h
  have hbytes : c.bytes.length =
      24 + (encodeRecords c.endian c.records).length + c.tail.length := by
    rw [PcapFile.bytes, List.length_append, List.length_append, c.magic.1]
  unfold Job.events Job.traffic Job.output
  rw [h, hinput]
  cases hcheck : job.checkOnly with
  | true =>
    refine ⟨_, _, settled_analyzeEvents job.path c hreturns, ?_, c.tail_lt⟩
    rw [if_pos rfl, hbytes]
  | false =>
    have hslim := settled_slimPcapEvents job.path c hreturns
    have hcount := (settled_countEvents job.path (c.slim job.build)).append_left
      (slimPcapEvents job.build job.path c.bytes)
    rw [hslim.moved_eq, hslim.lost_eq] at hcount
    refine ⟨_, _, by rw [hout]; exact hcount, ?_, c.tail_lt⟩
    have hout' : (c.slim job.build).bytes.length =
        24 + (encodeRecords c.endian (c.slim job.build).records).length := by
      rw [PcapFile.bytes, List.length_append, List.length_append, (c.slim job.build).magic.1]
      rfl
    change _ + (24 + (encodeRecords c.endian (c.slim job.build).records).length) + _ = _
    rw [if_neg (by decide), hout, hbytes, hout']
    change _ + (c.tail.length + 0) = _
    omega

/-! ### One file after the other -/

theorem sized_jobEvents {M : Nat} (hM : writeBatchCap ≤ M) {jobs : List Job}
    (hfits : ∀ job ∈ jobs, FileFits M job.input) : Sized M (jobEvents jobs) := by
  induction jobs with
  | nil => exact .nil
  | cons job jobs ih =>
    obtain ⟨hhere, hbehind⟩ := List.forall_mem_cons.mp hfits
    exact (Job.sized hM hhere).append (ih hbehind)

/-- Files on which the pass returns. -/
theorem settled_jobEvents {jobs : List Job}
    (hreturns : ∀ job ∈ jobs, ∃ out stats, slimPcap job.build job.path job.input = .ok (out, stats)) :
    movedTotal (jobEvents jobs) + lostTotal (jobEvents jobs) = (jobs.map Job.traffic).sum ∧
      lostTotal (jobEvents jobs) ≤ 15 * jobs.length ∧ EndsFlushed (jobEvents jobs) := by
  induction jobs with
  | nil => exact ⟨rfl, Nat.le_refl _, .inl rfl⟩
  | cons job jobs ih =>
    obtain ⟨⟨out, stats, hpass⟩, hbehind⟩ := List.forall_mem_cons.mp hreturns
    obtain ⟨moved, lost, hsettled, htraffic, hlost⟩ := Job.settled hpass
    obtain ⟨hsum, hloss, hends⟩ := ih hbehind
    change movedTotal (job.events ++ jobEvents jobs) + lostTotal (job.events ++ jobEvents jobs) = _ ∧
      lostTotal (job.events ++ jobEvents jobs) ≤ _ ∧ EndsFlushed (job.events ++ jobEvents jobs)
    rw [movedTotal_append, lostTotal_append, hsettled.moved_eq, hsettled.lost_eq, List.map_cons,
      List.sum_cons, List.length_cons]
    exact ⟨by omega, by omega, .append (.inr hsettled.flushed) hends⟩

end PcapSlim.PcapIo
