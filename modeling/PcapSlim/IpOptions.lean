/-
PcapSlim.IpOptions — IPv4 option lists, and the walk that looks for a source route.

The first part is the format: an `OptionList` is a list of one-byte No-Operation
options and of options with a length, closed by the end of the header or by
End-of-List, with at most one source route in it. `OptionList.finalDst` is the
destination of such a packet.

`readAsTlv` is what `ipv4_pseudo_dst` computes instead (`ipv4PseudoDst_eq`): it
takes the byte behind every option type for a length, also behind a
No-Operation. The two agree up to the first No-Operation (`readAsTlv_options`).
Where that stands before the route and the byte behind it is no length that fits,
the walk ends there, so that the route is lost (`follows_source_route`). Where it is
one, the walk goes on somewhere inside the options behind it and takes what stands
there for options; nothing is claimed of these headers.
-/
import PcapSlim.ParseTheorems

namespace PcapSlim.Parse

open Lib.Buffer Lib.Octets

/-! ## Options -/

/-- The type of a loose or strict source route: its low five bits are 3 or 9. -/
def IsSourceRoute (kind : UInt8) : Prop :=
  kind &&& 0x1f = ipOptLsrr ∨ kind &&& 0x1f = ipOptSsrr

instance (kind : UInt8) : Decidable (IsSourceRoute kind) := by
  unfold IsSourceRoute; infer_instance

/-- An option of type `kind` with a length byte and `data` behind it. -/
structure Tlv where
  kind : UInt8
  data : Bytes
  kind_gt : 1 < kind.toNat
  fits : data.length + 2 < 256
  deriving DecidableEq

/-- An option. -/
inductive IpOption where
  | nop
  | tlv (option : Tlv)
  deriving DecidableEq

/-- The last address of a source route, behind its pointer byte. -/
def lastAddress (kind : UInt8) (data : Bytes) : Option (FixedBytes 4) :=
  if h : IsSourceRoute kind ∧ 5 ≤ data.length then
    some ⟨data.drop (data.length - 4), by rw [List.length_drop]; omega⟩
  else none

namespace IpOption

def encode : IpOption → Bytes
  | nop => [1]
  | tlv option => option.kind :: UInt8.ofNat (option.data.length + 2) :: option.data

def isSourceRoute : IpOption → Bool
  | nop => false
  | tlv option => IsSourceRoute option.kind

/-- The destination that the option names, if it is a source route with addresses. -/
def route : IpOption → Option (FixedBytes 4)
  | nop => none
  | tlv option => lastAddress option.kind option.data

end IpOption

/-- Options back to back. -/
def encodeOptions (options : List IpOption) : Bytes := options.flatMap IpOption.encode

/-- The options of a header, and what is behind them: nothing, or End-of-List and
padding. There is at most one source route, and it holds whole addresses. -/
structure OptionList where
  options : List IpOption
  rest : Bytes
  ends : rest = [] ∨ ∃ padding, rest = ipOptEol :: padding
  one_route : options.countP IpOption.isSourceRoute ≤ 1
  addresses : ∀ option, .tlv option ∈ options → IsSourceRoute option.kind →
    ∃ k, option.data.length + 2 = 3 + 4 * k

namespace OptionList

/-- The option area of the header. -/
def bytes (l : OptionList) : Bytes := encodeOptions l.options ++ l.rest

/-- The last address of the source route, and the header's destination `dflt`
where there is none. -/
def finalDst (l : OptionList) (dflt : FixedBytes 4) : FixedBytes 4 :=
  (l.options.findSome? IpOption.route).getD dflt

/-- The options before the source route that names a destination: all of them where
none does. -/
def beforeRoute (l : OptionList) : List IpOption :=
  l.options.takeWhile fun option => option.route.isNone

/-- The area from the first No-Operation on. -/
def fromNop (l : OptionList) : Bytes :=
  encodeOptions (l.options.dropWhile fun option => option ≠ .nop) ++ l.rest

end OptionList

/-- The IPv4 header of `words` 32-bit words at `ip` is captured and its option area
is `l`. -/
structure HasOptions (buf : Bytes) (ip words : Nat) (l : OptionList) : Prop where
  words_ge : 5 ≤ words
  words_le : words ≤ 15
  captured : ip + 4 * words ≤ buf.length
  area : (buf.take (ip + 4 * words)).drop (ip + 20) = l.bytes

/-! ## The walk -/

/-- The front of `bs` as a type, the data that the byte behind it gives the length
of, and what is behind these. -/
def frontTlv : Bytes → Option (UInt8 × Bytes × Bytes)
  | kind :: len :: more =>
      if kind ≠ ipOptEol ∧ 2 ≤ len.toNat ∧ len.toNat - 2 ≤ more.length then
        some (kind, more.take (len.toNat - 2), more.drop (len.toNat - 2))
      else none
  | _ => none

theorem frontTlv_length {bs data rest : Bytes} {kind : UInt8}
    (h : frontTlv bs = some (kind, data, rest)) : rest.length < bs.length := by
  unfold frontTlv at h
  split at h
  · split_ifs at h
    cases h
    rw [List.length_drop, List.length_cons, List.length_cons]
    omega
  · cases h

/-- The destination found when `bs` is read as options with lengths only. -/
def readAsTlv (dflt : FixedBytes 4) (bs : Bytes) : FixedBytes 4 :=
  match _h : frontTlv bs with
  | none => dflt
  | some (kind, data, rest) =>
      match lastAddress kind data with
      | some dst => dst
      | none => readAsTlv dflt rest
termination_by bs.length
decreasing_by exact frontTlv_length _h

theorem readAsTlv_of_none {dflt : FixedBytes 4} {bs : Bytes} (h : frontTlv bs = none) :
    readAsTlv dflt bs = dflt := by
  rw [readAsTlv]
  split
  · rfl
  · rename_i h'
    rw [h] at h'
    cases h'

theorem readAsTlv_of_some {dflt : FixedBytes 4} {bs data rest : Bytes} {kind : UInt8}
    (h : frontTlv bs = some (kind, data, rest)) :
    readAsTlv dflt bs = (lastAddress kind data).getD (readAsTlv dflt rest) := by
  rw [readAsTlv]
  split
  · rename_i h'
    rw [h] at h'
    cases h'
  · rename_i h'
    rw [h] at h'
    cases h'
    cases lastAddress kind data <;> rfl

/-! ## The code walks this way -/

/-- The last address of a source route is read from the last four bytes of its data. -/
theorem lastAddress_window {buf : Bytes} {lo stop : Nat} {kind : UInt8}
    (hroute : IsSourceRoute kind) (hlong : lo + 5 ≤ stop) (hstop : stop ≤ buf.length) :
    ∃ dst, lastAddress kind ((buf.take stop).drop lo) = some dst ∧
      readIp4 buf (stop - 4) = .ok dst := by
  have hlen : ((buf.take stop).drop lo).length = stop - lo := length_window lo hstop
  have hfour : ((buf.take stop).drop lo).drop (((buf.take stop).drop lo).length - 4) =
      [elemAt buf (stop - 4), elemAt buf (stop - 4 + 1), elemAt buf (stop - 4 + 2),
        elemAt buf (stop - 4 + 3)] := by
    rw [hlen, List.drop_drop, show lo + (stop - lo - 4) = stop - 4 by omega,
      window_eq_cons (by omega) hstop, window_eq_cons (by omega) hstop,
      window_eq_cons (by omega) hstop, window_eq_cons (by omega) hstop,
      window_eq_nil buf (by omega)]
  rw [lastAddress, dif_pos ⟨hroute, by omega⟩, readIp4_ok (by omega)]
  refine ⟨_, rfl, ?_⟩
  simp only [hfour]

/-- What the tests of the loop find at `i`. -/
theorem frontTlv_window {buf : Bytes} {stop i : Nat} (hstop : stop ≤ buf.length) :
    frontTlv ((buf.take stop).drop i) =
      let len := (elemAt buf (i + 1)).toNat
      if i + 1 < stop ∧ elemAt buf i ≠ ipOptEol ∧ 2 ≤ len ∧ i + len ≤ stop then
        some (elemAt buf i, (buf.take (i + len)).drop (i + 2), (buf.take stop).drop (i + len))
      else none := by
  dsimp only
  by_cases hi : i < stop
  · rw [window_eq_cons hi hstop]
    by_cases hlast : i + 1 < stop
    · rw [window_eq_cons hlast hstop, frontTlv]
      have hmore : ((buf.take stop).drop (i + 1 + 1)).length = stop - (i + 2) :=
        length_window _ hstop
      generalize hlen : elemAt buf (i + 1) = len
      by_cases hfits : elemAt buf i ≠ ipOptEol ∧ 2 ≤ len.toNat ∧ i + len.toNat ≤ stop
      · rw [if_pos ⟨hfits.1, hfits.2.1, by omega⟩, if_pos ⟨hlast, hfits⟩, List.take_drop,
          List.take_take, List.drop_drop, Nat.min_eq_left (by omega),
          show i + 1 + 1 + (len.toNat - 2) = i + len.toNat by omega]
      · rw [if_neg fun h => hfits ⟨h.1, h.2.1, by omega⟩, if_neg fun h => hfits h.2]
    · rw [if_neg fun h => hlast h.1, window_eq_nil buf (by omega)]
      rfl
  · rw [if_neg (by omega), window_eq_nil buf (by omega)]
    rfl

/-- A round that finds no option with a length leaves the loop. -/
theorem pseudoDstRound_none {buf : Bytes} {stop i : Nat} (dflt : FixedBytes 4)
    (hstop : stop ≤ buf.length) (h : frontTlv ((buf.take stop).drop i) = none) :
    pseudoDstRound buf stop dflt i = .ok (.leave dflt) := by
  rw [frontTlv_window hstop] at h
  dsimp only at h
  generalize hlen : elemAt buf (i + 1) = len at h
  unfold pseudoDstRound
  by_cases hend : ¬ i < stop
  · rw [if_pos hend]
    rfl
  rw [if_neg hend, read_ok (by omega), ok_bind]
  by_cases heol : elemAt buf i = ipOptEol
  · rw [if_pos heol]
    rfl
  rw [if_neg heol]
  by_cases hlast : i + 1 ≥ stop
  · rw [if_pos hlast]
    rfl
  rw [if_neg hlast, read_ok (by omega), ok_bind]
  dsimp only
  rw [hlen]
  by_cases hbad : len.toNat < 2 ∨ i + len.toNat > stop
  · rw [if_pos hbad]
    rfl
  · rw [if_pos ⟨by omega, heol, by omega, by omega⟩] at h
    cases h

/-- A round at an option with a length leaves with its last address, if it is a
source route that has one, and steps over it otherwise. -/
theorem pseudoDstRound_some {buf data rest : Bytes} {stop i : Nat} {kind : UInt8}
    (dflt : FixedBytes 4) (hstop : stop ≤ buf.length)
    (h : frontTlv ((buf.take stop).drop i) = some (kind, data, rest)) :
    ∃ i', i + 2 ≤ i' ∧ i' ≤ stop ∧ rest = (buf.take stop).drop i' ∧
      pseudoDstRound buf stop dflt i =
        match lastAddress kind data with
        | some dst => .ok (.leave dst)
        | none => .ok (.again i') := by
  rw [frontTlv_window hstop] at h
  dsimp only at h
  generalize hlen : elemAt buf (i + 1) = len at h
  split_ifs at h with hfront
  obtain ⟨hlast, heol, htwo, hfit⟩ := hfront
  cases h
  refine ⟨i + len.toNat, by omega, hfit, rfl, ?_⟩
  unfold pseudoDstRound
  rw [if_neg (by omega), read_ok (by omega), ok_bind, if_neg heol, if_neg (by omega),
    read_ok (by omega), ok_bind, hlen]
  dsimp only
  rw [if_neg (by omega), if_neg (show ¬ len.toNat = 0 by omega)]
  have hdata : ((buf.take (i + len.toNat)).drop (i + 2)).length = i + len.toNat - (i + 2) :=
    length_window _ (by omega)
  by_cases hroute : elemAt buf i &&& 0x1f = ipOptLsrr ∨ elemAt buf i &&& 0x1f = ipOptSsrr
  · rw [if_pos hroute]
    by_cases haddr : i + len.toNat ≥ i + 3 + 4
    · obtain ⟨dst, hdst, hread⟩ :=
        lastAddress_window hroute (show i + 2 + 5 ≤ i + len.toNat by omega)
          (show i + len.toNat ≤ buf.length by omega)
      rw [if_pos haddr, sub_ok (by omega), ok_bind, hread, hdst]
      rfl
    · rw [if_neg haddr, lastAddress, dif_neg (by omega)]
      rfl
  · rw [if_neg hroute, lastAddress, dif_neg fun h => hroute h.1]
    rfl

/-- The loop of `ipv4_pseudo_dst` reads the rest of the header as options with
lengths. Each round moves at least two bytes on. -/
theorem pseudoDstLoop_eq {buf : Bytes} {stop : Nat} (dflt : FixedBytes 4)
    (hstop : stop ≤ buf.length) (fuel : Nat) : ∀ i, stop ≤ i + fuel →
    pseudoDstLoop buf stop dflt fuel i = .ok (readAsTlv dflt ((buf.take stop).drop i)) := by
  induction fuel with
  | zero =>
    intro i hfuel
    rw [readAsTlv_of_none (by rw [frontTlv_window hstop]; exact if_neg (by omega))]
    rfl
  | succ fuel ih =>
    intro i hfuel
    rw [pseudoDstLoop_succ]
    cases hfront : frontTlv ((buf.take stop).drop i) with
    | none =>
      rw [pseudoDstRound_none dflt hstop hfront, readAsTlv_of_none hfront]
      rfl
    | some option =>
      obtain ⟨i', hge, -, hrest, hround⟩ := pseudoDstRound_some dflt hstop hfront
      rw [hround, readAsTlv_of_some hfront]
      cases lastAddress option.1 option.2.1 with
      | some dst => rfl
      | none =>
        rw [hrest]
        exact ih i' (by omega)

/-- **What `ipv4_pseudo_dst` computes** for a header with options. -/
theorem ipv4PseudoDst_eq {buf : Bytes} {ip words : Nat} {l : OptionList} {dflt : FixedBytes 4}
    (h : HasOptions buf ip words l) (hdst : readIp4 buf (ip + 16) = .ok dflt) :
    ipv4PseudoDst buf ip (4 * words) = .ok (readAsTlv dflt l.bytes) := by
  have hwords := h.words_ge
  rw [ipv4PseudoDst, hdst, ok_bind, ← h.area]
  by_cases hplain : 4 * words ≤ 20
  · rw [if_pos hplain, window_eq_nil buf (by omega),
      readAsTlv_of_none rfl]
    rfl
  · rw [if_neg hplain]
    exact pseudoDstLoop_eq dflt h.captured _ _ (by omega)

/-- `ipv4_pseudo_dst` returns, and reads the IP header only. -/
theorem ipv4PseudoDst_congr {buf buf' : Bytes} {ip hl : Nat} (hlen : ip + 20 ≤ buf.length)
    (hlen' : ip + 20 ≤ buf'.length) (hhl : ip + hl ≤ buf.length) (hhl' : ip + hl ≤ buf'.length)
    (hagree : ∀ i, ip + 16 ≤ i → i < ip + max 20 hl → elemAt buf' i = elemAt buf i) :
    ∃ d, ipv4PseudoDst buf ip hl = .ok d ∧ ipv4PseudoDst buf' ip hl = .ok d := by
  unfold ipv4PseudoDst
  rw [readIp4_ok (show ip + 16 + 4 ≤ buf.length by omega), ok_bind,
    readIp4_ok (show ip + 16 + 4 ≤ buf'.length by omega), ok_bind]
  simp only [hagree (ip + 16) (by omega) (by omega), hagree (ip + 16 + 1) (by omega) (by omega),
    hagree (ip + 16 + 2) (by omega) (by omega), hagree (ip + 16 + 3) (by omega) (by omega)]
  by_cases hplain : hl ≤ 20
  · exact ⟨_, by rw [if_pos hplain]; rfl, by rw [if_pos hplain]; rfl⟩
  · rw [if_neg hplain, if_neg hplain, pseudoDstLoop_eq _ hhl _ _ (by omega),
      pseudoDstLoop_eq _ hhl' _ _ (by omega),
      window_congr hhl hhl' fun i hi hlt => hagree i (by omega) (by omega)]
    exact ⟨_, rfl, rfl⟩

/-! ## Options with lengths are walked alike -/

theorem frontTlv_encode (option : Tlv) (more : Bytes) :
    frontTlv ((IpOption.tlv option).encode ++ more) = some (option.kind, option.data, more) := by
  have hfits := option.fits
  have hlen : (UInt8.ofNat (option.data.length + 2)).toNat = option.data.length + 2 := by
    rw [UInt8.toNat_ofNat', Nat.mod_eq_of_lt (by omega)]
  have hkind : option.kind ≠ ipOptEol := by
    intro heol
    have hgt := option.kind_gt
    rw [heol] at hgt
    exact absurd hgt (by decide)
  rw [IpOption.encode, List.cons_append, List.cons_append, frontTlv, hlen,
    if_pos ⟨hkind, by omega, by rw [List.length_append]; omega⟩, Nat.add_sub_cancel,
    List.take_left, List.drop_left]

/-- An option with a length is stepped over, or names the destination. -/
theorem readAsTlv_tlv (dflt : FixedBytes 4) (option : Tlv) (options : List IpOption)
    (rest : Bytes) :
    readAsTlv dflt (encodeOptions (.tlv option :: options) ++ rest) =
      (IpOption.tlv option).route.getD (readAsTlv dflt (encodeOptions options ++ rest)) := by
  rw [encodeOptions, List.flatMap_cons, List.append_assoc, readAsTlv_of_some (frontTlv_encode ..)]
  rfl

/-- Behind the options there is nothing more to read. -/
theorem readAsTlv_rest (l : OptionList) (dflt : FixedBytes 4) : readAsTlv dflt l.rest = dflt := by
  apply readAsTlv_of_none
  rcases l.ends with hnil | ⟨padding, heol⟩
  · rw [hnil]
    rfl
  · rw [heol]
    cases padding with
    | nil => rfl
    | cons len more => rw [frontTlv, if_neg fun h => h.1 rfl]

/-- Without a No-Operation before the source route the walk finds its destination. -/
theorem readAsTlv_options (l : OptionList) (dflt : FixedBytes 4) (options : List IpOption)
    (hnop : .nop ∉ options.takeWhile (fun option => option.route.isNone)) :
    readAsTlv dflt (encodeOptions options ++ l.rest) =
      (options.findSome? IpOption.route).getD dflt := by
  induction options with
  | nil => exact readAsTlv_rest l dflt
  | cons option options ih =>
    cases option with
    | nop => simp [IpOption.route] at hnop
    | tlv option =>
      rw [readAsTlv_tlv, List.findSome?_cons]
      cases hroute : (IpOption.tlv option).route with
      | some dst => rfl
      | none =>
        rw [List.takeWhile_cons_of_pos (by rw [hroute]; rfl), List.mem_cons, not_or] at hnop
        exact ih hnop.2

/-- With one before it, the walk goes wrong there. -/
theorem readAsTlv_fromNop (l : OptionList) (dflt : FixedBytes 4) (options : List IpOption)
    (hnop : .nop ∈ options.takeWhile (fun option => option.route.isNone)) :
    readAsTlv dflt (encodeOptions options ++ l.rest) =
      readAsTlv dflt (encodeOptions (options.dropWhile fun option => option ≠ .nop) ++ l.rest) := by
  induction options with
  | nil => cases hnop
  | cons option options ih =>
    cases option with
    | nop => rfl
    | tlv option =>
      cases hroute : (IpOption.tlv option).route with
      | some dst =>
        rw [List.takeWhile_cons_of_neg (by rw [hroute]; exact Bool.false_ne_true)] at hnop
        cases hnop
      | none =>
        rw [List.takeWhile_cons_of_pos (by rw [hroute]; rfl), List.mem_cons] at hnop
        rw [readAsTlv_tlv, hroute, Option.getD_none, List.dropWhile_cons_of_pos (by simp)]
        refine ih (hnop.resolve_left ?_)
        intro heq
        cases heq

/-- **The walk follows the source route where no No-Operation stands before it.** Behind
one whose neighbour is no length that fits it finds the header's destination only. -/
theorem follows_source_route {buf : Bytes} {ip words : Nat} {l : OptionList}
    {dflt : FixedBytes 4} (h : HasOptions buf ip words l)
    (hdst : readIp4 buf (ip + 16) = .ok dflt) :
    (IpOption.nop ∉ l.beforeRoute → ipv4PseudoDst buf ip (4 * words) = .ok (l.finalDst dflt)) ∧
    (IpOption.nop ∈ l.beforeRoute → frontTlv l.fromNop = none →
      (ipv4PseudoDst buf ip (4 * words) = .ok (l.finalDst dflt) ↔ l.finalDst dflt = dflt)) := by
  rw [ipv4PseudoDst_eq h hdst, Except.ok.injEq]
  refine ⟨readAsTlv_options l dflt l.options, fun hnop hfront => ?_⟩
  have hlost : readAsTlv dflt l.bytes = dflt :=
    (readAsTlv_fromNop l dflt l.options hnop).trans (readAsTlv_of_none hfront)
  rw [hlost]
  exact eq_comm

/-- An IPv4 header of 28 bytes with the given option area, to 10.0.0.2. -/
def headerWith (area : Bytes) : Bytes :=
  [0x47, 0, 0, 28, 0, 1, 0, 0, 64, 6, 0, 0, 10, 0, 0, 1, 10, 0, 0, 2] ++ area

/-- A loose source route to 5.6.7.8. -/
def looseRoute : Tlv :=
  { kind := 0x83, data := [4, 5, 6, 7, 8], kind_gt := by decide, fits := by decide }

/-- The route with a No-Operation in front, which aligns its addresses to words. -/
def paddedRoute : OptionList where
  options := [.nop, .tlv looseRoute]
  rest := []
  ends := .inl rfl
  one_route := by decide
  addresses := fun option hmem _ => by
    have hroute : option = looseRoute := by simpa using hmem
    exact ⟨1, by rw [hroute]; rfl⟩

/-- The same with the padding behind it. -/
def plainRoute : OptionList where
  options := [.tlv looseRoute]
  rest := [0]
  ends := .inr ⟨[], rfl⟩
  one_route := by decide
  addresses := fun option hmem _ => by
    have hroute : option = looseRoute := by simpa using hmem
    exact ⟨1, by rw [hroute]; rfl⟩

theorem paddedRoute_not_followed :
    ¬ ∀ buf ip words l dflt, HasOptions buf ip words l → readIp4 buf (ip + 16) = .ok dflt →
      ipv4PseudoDst buf ip (4 * words) = .ok (l.finalDst dflt) := by
  intro h
  have hheader : HasOptions (headerWith paddedRoute.bytes) 0 7 paddedRoute :=
    ⟨by decide, by decide, by decide, by decide⟩
  have hdst := h _ _ _ _ ⟨[10, 0, 0, 2], rfl⟩ hheader (by decide)
  exact absurd hdst (by decide)

/-- The route is followed with the padding behind it, and not with the padding in front. -/
theorem follows_source_route_looseRoute :
    ipv4PseudoDst (headerWith plainRoute.bytes) 0 28 = .ok ⟨[5, 6, 7, 8], rfl⟩ ∧
      ipv4PseudoDst (headerWith paddedRoute.bytes) 0 28 ≠ .ok ⟨[5, 6, 7, 8], rfl⟩ := by
  have hplain : HasOptions (headerWith plainRoute.bytes) 0 7 plainRoute :=
    ⟨by decide, by decide, by decide, by decide⟩
  have hpadded : HasOptions (headerWith paddedRoute.bytes) 0 7 paddedRoute :=
    ⟨by decide, by decide, by decide, by decide⟩
  have hdst : ∀ l : OptionList, readIp4 (headerWith l.bytes) (0 + 16) =
      .ok ⟨[10, 0, 0, 2], rfl⟩ := fun l => rfl
  refine ⟨(follows_source_route hplain (hdst _)).1 (by decide), fun h => ?_⟩
  have hsame := ((follows_source_route hpadded (hdst _)).2 (by decide) (by decide)).mp h
  exact absurd hsame (by decide)

end PcapSlim.Parse
