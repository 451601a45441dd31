/-
PcapSlim.Lib.Files — files with inodes, as far as concurrent programs see them.

A path names an inode and an inode holds bytes. A program that has opened a file
keeps its inode, whatever becomes of the path. An inode is known by the path that
it was created at and a number; it keeps that name when the file is renamed.
`Action` lists what one system call does to the files, and renaming is atomic.
`create` is what open does with O_CREAT and O_TRUNC: `CanCreate` says which inode
it ends up with.

Two facts carry the proofs of programs. Writing a part of `whole` at its own
offset into a prefix of `whole` leaves a prefix of `whole` (`overwrite_eq_take`),
so that several writers of the same bytes do not disturb each other. And an
action that stays within a set of paths neither sees nor changes what lies
outside (`AgreeOn.apply`, `agreeOn_apply`).
-/
import PcapSlim.Lib.Octets
import Mathlib.Data.Set.Defs
import Mathlib.Logic.Function.Basic

namespace Lib.Files

open Lib.Octets

/-- An inode, by the path it was created at. -/
structure Ino (P : Type) where
  origin : P
  serial : Nat
  deriving DecidableEq

/-- Which inode a path names, and the contents of the inodes in use. There is always
a number for a new inode. -/
structure FileSystem (P : Type) where
  dir : P → Option (Ino P)
  data : Ino P → Option Bytes
  linked : ∀ p j, dir p = some j → (data j).isSome
  bounded : ∀ p, ∃ k, ∀ serial, k ≤ serial → data ⟨p, serial⟩ = none

/-- The effect of a system call on the files. -/
inductive Action (P : Type) where
  | idle
  | create (p : P) (j : Ino P)
  | write (j : Ino P) (off : Nat) (bytes : Bytes)
  | rename (p q : P)
  | remove (p : P)

/-! ## Overwriting -/

/-- `bytes` stored at `off`; a gap before it reads as zeros. -/
def overwrite (content : Bytes) (off : Nat) (bytes : Bytes) : Bytes :=
  (content ++ List.replicate (off - content.length) 0).take off ++ bytes ++
    content.drop (off + bytes.length)

/-- A part of `whole` written at its offset into a prefix of `whole`. -/
theorem overwrite_eq_take {whole content bytes : Bytes} {off : Nat} (hcontent : content <+: whole)
    (hoff : off ≤ content.length) (hbytes : bytes <+: whole.drop off) :
    overwrite content off bytes = whole.take (max content.length (off + bytes.length)) := by
  have hfront : (content ++ List.replicate (off - content.length) 0).take off = whole.take off := by
    rw [List.take_append_of_le_length hoff, List.prefix_iff_eq_take.mp hcontent, List.take_take,
      Nat.min_eq_left hoff]
  have hmiddle : whole.take off ++ bytes = whole.take (off + bytes.length) := by
    rw [List.take_add, ← List.prefix_iff_eq_take.mp hbytes]
  have hback : content.drop (off + bytes.length) =
      (whole.take content.length).drop (off + bytes.length) := by
    rw [← List.prefix_iff_eq_take.mp hcontent]
  rw [overwrite, hfront, hmiddle, hback]
  by_cases hlen : content.length ≤ off + bytes.length
  · rw [Nat.max_eq_right hlen, List.drop_eq_nil_of_le (by rw [List.length_take]; omega),
      List.append_nil]
  · have hmin : whole.take (off + bytes.length) =
        (whole.take content.length).take (off + bytes.length) := by
      rw [List.take_take, Nat.min_eq_left (by omega)]
    rw [Nat.max_eq_left (by omega), hmin, List.take_append_drop]

/-- It leaves a prefix of `whole` that is no shorter. -/
theorem overwrite_prefix {whole content bytes : Bytes} {off : Nat} (hcontent : content <+: whole)
    (hoff : off ≤ content.length) (hbytes : bytes <+: whole.drop off) :
    content <+: overwrite content off bytes ∧ overwrite content off bytes <+: whole ∧
      off + bytes.length ≤ (overwrite content off bytes).length := by
  have hlen := hcontent.length_le
  have hlen' := hbytes.length_le
  rw [List.length_drop] at hlen'
  rw [overwrite_eq_take hcontent hoff hbytes]
  refine ⟨?_, List.take_prefix _ _, ?_⟩
  · refine List.prefix_of_prefix_length_le hcontent (List.take_prefix _ _) ?_
    rw [List.length_take]
    omega
  · rw [List.length_take]
    omega

/-! ## Actions -/

namespace FileSystem

variable {P : Type}

/-- The bytes of the file at `p`. -/
def read (fs : FileSystem P) (p : P) : Option Bytes := (fs.dir p).bind fs.data

theorem read_of_dir {fs : FileSystem P} {p : P} {j : Ino P} (h : fs.dir p = some j) :
    fs.read p = fs.data j := by
  rw [read, h]
  rfl

theorem read_of_dir_none {fs : FileSystem P} {p : P} (h : fs.dir p = none) :
    fs.read p = none := by
  rw [read, h]
  rfl

theorem exists_data {fs : FileSystem P} {p : P} {j : Ino P} (h : fs.dir p = some j) :
    ∃ c, fs.data j = some c :=
  Option.isSome_iff_exists.mp (fs.linked p j h)

/-- What can be read is what is in the directory. -/
theorem isSome_read (fs : FileSystem P) (p : P) : (fs.read p).isSome = (fs.dir p).isSome := by
  cases hdir : fs.dir p with
  | none => rw [read_of_dir_none hdir, Option.isSome_none, Option.isSome_none]
  | some j =>
    obtain ⟨c, hc⟩ := exists_data hdir
    rw [read_of_dir hdir, hc, Option.isSome_some, Option.isSome_some]

/-- Creating `p` ends up with inode `j`: the one it names, or a new one. -/
def CanCreate (fs : FileSystem P) (p : P) (j : Ino P) : Prop :=
  fs.dir p = some j ∨ (fs.dir p = none ∧ j.origin = p ∧ fs.data j = none)

theorem exists_canCreate (fs : FileSystem P) (p : P) : ∃ j, fs.CanCreate p j := by
  cases hdir : fs.dir p with
  | some j => exact ⟨j, .inl hdir⟩
  | none =>
    obtain ⟨k, hk⟩ := fs.bounded p
    exact ⟨⟨p, k⟩, .inr ⟨hdir, rfl, hk k (Nat.le_refl k)⟩⟩

/-- The inode that a file ends up with is not that of another file. -/
theorem CanCreate.ne {fs : FileSystem P} {p : P} {i j : Ino P} (h : fs.CanCreate p j)
    (hdata : fs.data i ≠ none) (hdir : fs.dir p ≠ some i) : i ≠ j := by
  rintro rfl
  rcases h with h | ⟨-, -, h⟩
  · exact hdir h
  · exact hdata h

/-- The files at the start, each with an inode of its own. -/
def ofFiles (files : P → Option Bytes) : FileSystem P where
  dir p := (files p).map fun _ => ⟨p, 0⟩
  data j := if j.serial = 0 then files j.origin else none
  linked p j h := by
    obtain ⟨c, hc, rfl⟩ := Option.map_eq_some_iff.mp h
    simp [hc]
  bounded p := ⟨1, fun serial h => if_neg (by dsimp only; omega)⟩

theorem dir_ofFiles {files : P → Option Bytes} {p : P} {c : Bytes} (h : files p = some c) :
    (ofFiles files).dir p = some ⟨p, 0⟩ := by
  change (files p).map _ = _
  rw [h]
  rfl

theorem dir_ofFiles_none {files : P → Option Bytes} {p : P} (h : files p = none) :
    (ofFiles files).dir p = none := by
  change (files p).map _ = _
  rw [h]
  rfl

theorem origin_of_dir_ofFiles {files : P → Option Bytes} {p : P} {j : Ino P}
    (h : (ofFiles files).dir p = some j) : j.origin = p := by
  obtain ⟨c, -, rfl⟩ := Option.map_eq_some_iff.mp h
  rfl

theorem data_ofFiles {files : P → Option Bytes} {j : Ino P} {c : Bytes}
    (h : (ofFiles files).data j = some c) : files j.origin = some c := by
  change (if j.serial = 0 then files j.origin else none) = some c at h
  by_cases hj : j.serial = 0
  · rwa [if_pos hj] at h
  · rw [if_neg hj] at h
    cases h

variable [DecidableEq P]

def apply (fs : FileSystem P) : Action P → FileSystem P
  | .idle => fs
  | .create p j =>
      { dir := Function.update fs.dir p (some j)
        data := Function.update fs.data j (some [])
        linked := fun q i h => by
          by_cases hi : i = j
          · rw [hi, Function.update_self]
            rfl
          · have hq : q ≠ p := by
              rintro rfl
              rw [Function.update_self] at h
              exact hi (Option.some.inj h).symm
            rw [Function.update_of_ne hi]
            rw [Function.update_of_ne hq] at h
            exact fs.linked q i h
        bounded := fun q => by
          obtain ⟨k, hk⟩ := fs.bounded q
          refine ⟨max k (j.serial + 1), fun serial h => ?_⟩
          have hne : (⟨q, serial⟩ : Ino P) ≠ j := by
            rintro rfl
            dsimp only at h
            omega
          rw [Function.update_of_ne hne]
          exact hk serial (by omega) }
  | .write j off bytes =>
      { dir := fs.dir
        data := Function.update fs.data j ((fs.data j).map fun c => overwrite c off bytes)
        linked := fun q i h => by
          by_cases hi : i = j
          · rw [hi, Function.update_self, Option.isSome_map]
            exact hi ▸ fs.linked q i h
          · rw [Function.update_of_ne hi]
            exact fs.linked q i h
        bounded := fun q => by
          obtain ⟨k, hk⟩ := fs.bounded q
          refine ⟨k, fun serial h => ?_⟩
          by_cases hj : (⟨q, serial⟩ : Ino P) = j
          · rw [← hj, Function.update_self, hk serial h]
            rfl
          · rw [Function.update_of_ne hj, hk serial h] }
  | .rename p q =>
      { dir := fun r =>
          if fs.dir p = none then fs.dir r
          else if r = q then fs.dir p else if r = p then none else fs.dir r
        data := fs.data
        linked := fun r i h => by
          by_cases hp : fs.dir p = none
          · rw [if_pos hp] at h
            exact fs.linked r i h
          · rw [if_neg hp] at h
            by_cases hq : r = q
            · rw [if_pos hq] at h
              exact fs.linked p i h
            · rw [if_neg hq] at h
              by_cases hr : r = p
              · rw [if_pos hr] at h
                cases h
              · rw [if_neg hr] at h
                exact fs.linked r i h
        bounded := fs.bounded }
  | .remove p =>
      { dir := Function.update fs.dir p none
        data := fs.data
        linked := fun r i h => by
          by_cases hr : r = p
          · rw [hr, Function.update_self] at h
            cases h
          · rw [Function.update_of_ne hr] at h
            exact fs.linked r i h
        bounded := fs.bounded }

section Apply

variable {fs : FileSystem P} {p q r : P} {i j : Ino P}

theorem dir_create_self : (fs.apply (.create p j)).dir p = some j := Function.update_self ..

theorem dir_create_of_ne (h : q ≠ p) : (fs.apply (.create p j)).dir q = fs.dir q :=
  Function.update_of_ne h ..

theorem data_create_self : (fs.apply (.create p j)).data j = some [] := Function.update_self ..

theorem data_create_of_ne (h : i ≠ j) : (fs.apply (.create p j)).data i = fs.data i :=
  Function.update_of_ne h ..

theorem data_write_self {off : Nat} {bytes c : Bytes} (h : fs.data j = some c) :
    (fs.apply (.write j off bytes)).data j = some (overwrite c off bytes) := by
  change Function.update fs.data j _ j = _
  rw [Function.update_self, h]
  rfl

theorem data_write_of_ne {off : Nat} {bytes : Bytes} (h : i ≠ j) :
    (fs.apply (.write j off bytes)).data i = fs.data i :=
  Function.update_of_ne h ..

theorem dir_rename (h : fs.dir p = some j) :
    (fs.apply (.rename p q)).dir r =
      if r = q then some j else if r = p then none else fs.dir r := by
  change (if fs.dir p = none then _ else _) = _
  rw [h]
  rfl

theorem dir_remove_self : (fs.apply (.remove p)).dir p = none := Function.update_self ..

theorem dir_remove_of_ne (h : q ≠ p) : (fs.apply (.remove p)).dir q = fs.dir q :=
  Function.update_of_ne h ..

end Apply

end FileSystem

/-! ## Actions on different files -/

variable {P : Type} {S T : Set P}

/-- The action names only paths of `S` and inodes created there. -/
def Action.Within (S : Set P) : Action P → Prop
  | .idle => True
  | .create p j => p ∈ S ∧ j.origin ∈ S
  | .write j _ _ => j.origin ∈ S
  | .rename p q => p ∈ S ∧ q ∈ S
  | .remove p => p ∈ S

/-- The two do not differ at the paths of `S` and in the inodes created there. -/
structure AgreeOn (S : Set P) (fs fs' : FileSystem P) : Prop where
  dir : ∀ p ∈ S, fs.dir p = fs'.dir p
  data : ∀ j : Ino P, j.origin ∈ S → fs.data j = fs'.data j

theorem AgreeOn.rfl {fs : FileSystem P} : AgreeOn S fs fs := ⟨fun _ _ => .refl _, fun _ _ => .refl _⟩

theorem AgreeOn.symm {fs fs' : FileSystem P} (h : AgreeOn S fs fs') : AgreeOn S fs' fs :=
  ⟨fun p hp => (h.dir p hp).symm, fun j hj => (h.data j hj).symm⟩

theorem AgreeOn.trans {fs fs' fs'' : FileSystem P} (h : AgreeOn S fs fs')
    (h' : AgreeOn S fs' fs'') : AgreeOn S fs fs'' :=
  ⟨fun p hp => (h.dir p hp).trans (h'.dir p hp), fun j hj => (h.data j hj).trans (h'.data j hj)⟩

/-- The files of `S` are in inodes created there. -/
def Closed (S : Set P) (fs : FileSystem P) : Prop :=
  ∀ p ∈ S, ∀ j, fs.dir p = some j → j.origin ∈ S

theorem Closed.of_agree {fs fs' : FileSystem P} (h : Closed S fs) (hagree : AgreeOn S fs' fs) :
    Closed S fs' :=
  fun p hp j hj => h p hp j ((hagree.dir p hp).symm.trans hj)

theorem AgreeOn.read {fs fs' : FileSystem P} (h : AgreeOn S fs fs') (hclosed : Closed S fs) {p : P}
    (hp : p ∈ S) : fs.read p = fs'.read p := by
  cases hdir : fs.dir p with
  | none =>
    rw [FileSystem.read_of_dir_none hdir, FileSystem.read_of_dir_none ((h.dir p hp).symm.trans hdir)]
  | some j =>
    rw [FileSystem.read_of_dir hdir, FileSystem.read_of_dir ((h.dir p hp).symm.trans hdir),
      h.data j (hclosed p hp j hdir)]

variable [DecidableEq P]

/-- An action within `S` leaves the files of `S` in inodes created there. -/
theorem Closed.apply {fs : FileSystem P} (h : Closed S fs) {a : Action P} (ha : a.Within S) :
    Closed S (fs.apply a) := by
  intro r hr i hi
  cases a with
  | idle | write => exact h r hr i hi
  | create p j =>
    by_cases hp : r = p
    · rw [hp, FileSystem.dir_create_self] at hi
      cases hi
      exact ha.2
    · rw [FileSystem.dir_create_of_ne hp] at hi
      exact h r hr i hi
  | rename p q =>
    cases hdir : fs.dir p with
    | none =>
      change (if fs.dir p = none then _ else _) = _ at hi
      rw [if_pos hdir] at hi
      exact h r hr i hi
    | some j =>
      rw [FileSystem.dir_rename hdir] at hi
      split_ifs at hi with hq hp
      · cases hi
        exact h p ha.1 _ hdir
      · exact h r hr i hi
  | remove p =>
    by_cases hp : r = p
    · rw [hp, FileSystem.dir_remove_self] at hi
      cases hi
    · rw [FileSystem.dir_remove_of_ne hp] at hi
      exact h r hr i hi

/-- An action within `S` does the same to both. -/
theorem AgreeOn.apply {fs fs' : FileSystem P} (h : AgreeOn S fs fs') {a : Action P}
    (ha : a.Within S) : AgreeOn S (fs.apply a) (fs'.apply a) := by
  cases a with
  | idle => exact h
  | create p j =>
    refine ⟨fun q hq => ?_, fun i hi => ?_⟩
    · by_cases hp : q = p
      · rw [hp, FileSystem.dir_create_self, FileSystem.dir_create_self]
      · rw [FileSystem.dir_create_of_ne hp, FileSystem.dir_create_of_ne hp, h.dir q hq]
    · by_cases hj : i = j
      · rw [hj, FileSystem.data_create_self, FileSystem.data_create_self]
      · rw [FileSystem.data_create_of_ne hj, FileSystem.data_create_of_ne hj, h.data i hi]
  | write j off bytes =>
    refine ⟨h.dir, fun i hi => ?_⟩
    by_cases hj : i = j
    · change Function.update fs.data j _ i = Function.update fs'.data j _ i
      rw [hj, Function.update_self, Function.update_self, h.data j ha]
    · rw [FileSystem.data_write_of_ne hj, FileSystem.data_write_of_ne hj, h.data i hi]
  | rename p q =>
    refine ⟨fun r hr => ?_, h.data⟩
    change (if fs.dir p = none then _ else _) = (if fs'.dir p = none then _ else _)
    rw [h.dir p ha.1, h.dir r hr]
  | remove p =>
    refine ⟨fun r hr => ?_, h.data⟩
    by_cases hp : r = p
    · rw [hp, FileSystem.dir_remove_self, FileSystem.dir_remove_self]
    · rw [FileSystem.dir_remove_of_ne hp, FileSystem.dir_remove_of_ne hp, h.dir r hr]

/-- An action within `T` does nothing outside. -/
theorem agreeOn_apply (hdisjoint : ∀ p ∈ S, p ∉ T) (fs : FileSystem P) {a : Action P}
    (ha : a.Within T) : AgreeOn S (fs.apply a) fs := by
  have hne : ∀ {p q : P}, p ∈ S → q ∈ T → p ≠ q := by
    rintro p q hp hq rfl
    exact hdisjoint p hp hq
  have hino : ∀ {i j : Ino P}, i.origin ∈ S → j.origin ∈ T → i ≠ j := fun hi hj h =>
    hne hi hj (congrArg Ino.origin h)
  cases a with
  | idle => exact .rfl
  | create p j =>
    exact ⟨fun q hq => FileSystem.dir_create_of_ne (hne hq ha.1),
      fun i hi => FileSystem.data_create_of_ne (hino hi ha.2)⟩
  | write j off bytes => exact ⟨fun _ _ => .refl _, fun i hi => FileSystem.data_write_of_ne (hino hi ha)⟩
  | rename p q =>
    refine ⟨fun r hr => ?_, fun _ _ => .refl _⟩
    change (if fs.dir p = none then _ else _) = _
    rw [if_neg (hne hr ha.2), if_neg (hne hr ha.1), ite_self]
  | remove p => exact ⟨fun r hr => FileSystem.dir_remove_of_ne (hne hr ha), fun _ _ => .refl _⟩

end Lib.Files
