/-
PcapSlim.Directory — `coord.rs`: what is done to a directory before its files are
slimmed, `cleanup_stale_tmp` and `list_pending_pcaps`.

A `Disk` is the files with their modification times and the clock. Creating a
file and writing to it set its time, renaming does not. Both loops look at one
entry after the other while other processes may act: `Cleaner` and `Lister` are
the places where they are, with one step for an entry, and removing a file is a
step of its own. Where a setting has `faults`, every call may fail; `is_file` and
`exists` answer no then.

`read_dir` delivers the entries in any order, each once. Entries that are not
files are names without a file here. Left out: names that are not UTF-8, which
`list_pending_pcaps` skips, and what happens when times change between two
comparisons of the sort.
-/
import PcapSlim.Coord

namespace PcapSlim.Coord

open Lib.Octets Lib.Files PcapIo

/-! ## Files with times -/

/-- A `SystemTime`, in nanoseconds since the epoch. -/
abbrev Time : Type := Int

def nanosPerSec : Int := 1000000000

/-- The first `SystemTime`: it counts its seconds in an `i64`. -/
def firstTime : Time := -9223372036854775808 * nanosPerSec

/-- `now.checked_sub(Duration::from_secs(secs)).unwrap_or(UNIX_EPOCH)`. -/
def secondsBefore (now : Time) (secs : Nat) : Time :=
  let time := now - secs * nanosPerSec
  if firstTime ≤ time then time else 0

/-- `STALE_TMP_SECS`. -/
def staleTmpSecs : Nat := 300

/-- The files, when each of them was last written to, and what the clock says. -/
structure Disk where
  files : FileSystem Path
  mtime : Ino Path → Time
  now : Time

namespace Disk

/-- A system call, at the time that the clock says. -/
def apply (d : Disk) (a : Action Path) : Disk where
  files := d.files.apply a
  mtime :=
    match a with
    | .create _ j | .write j _ _ => Function.update d.mtime j d.now
    | .idle | .rename _ _ | .remove _ => d.mtime
  now := d.now

/-- `path.is_file()`. -/
def isFile (d : Disk) (n : Name) : Bool := (d.files.dir (srcPath n)).isSome

/-- `fs::metadata(path)?.modified()?`, which fails if there is no file. -/
def modified (d : Disk) (n : Name) : Option Time := (d.files.dir (srcPath n)).map d.mtime

/-- `is_marked`. -/
def isMarked (d : Disk) (n : Name) : Bool := (d.files.dir (markerPath n)).isSome

end Disk

/-! ## `cleanup_tmp_older_than` -/

/-- Where a call of `cleanup_tmp_older_than` is: at the first of the names that are
left, or about to remove `name`. -/
inductive Cleaner where
  | entries (todo : List Name) (cleaned : Nat)
  | remove (name : Name) (todo : List Name) (cleaned : Nat)
  | done (cleaned : Nat)

/-- One step of `cleanup_tmp_older_than`. -/
inductive CleanerStep (σ : Setting) (cutoff : Time) (d : Disk) : Cleaner → Action Path → Cleaner → Prop
  | other {n todo cleaned} (hname : dotPcapTmp.isSuffixOf n = false) :
      CleanerStep σ cutoff d (.entries (n :: todo) cleaned) .idle (.entries todo cleaned)
  | gone {n todo cleaned} (hname : dotPcapTmp.isSuffixOf n = true) (hgone : d.modified n = none) :
      CleanerStep σ cutoff d (.entries (n :: todo) cleaned) .idle (.entries todo cleaned)
  | young {n todo cleaned mtime} (hname : dotPcapTmp.isSuffixOf n = true)
      (htime : d.modified n = some mtime) (hyoung : ¬ mtime < cutoff) :
      CleanerStep σ cutoff d (.entries (n :: todo) cleaned) .idle (.entries todo cleaned)
  | stale {n todo cleaned mtime} (hname : dotPcapTmp.isSuffixOf n = true)
      (htime : d.modified n = some mtime) (hstale : mtime < cutoff) :
      CleanerStep σ cutoff d (.entries (n :: todo) cleaned) .idle (.remove n todo cleaned)
  | removed {n todo cleaned} (hthere : d.isFile n = true) :
      CleanerStep σ cutoff d (.remove n todo cleaned) (.remove (srcPath n))
        (.entries todo (cleaned + 1))
  | vanished {n todo cleaned} (hgone : d.isFile n = false) :
      CleanerStep σ cutoff d (.remove n todo cleaned) .idle (.entries todo cleaned)
  | done {cleaned} : CleanerStep σ cutoff d (.entries [] cleaned) .idle (.done cleaned)
  -- `metadata` or `remove_file` fails
  | unread {n todo cleaned} (hfaults : σ.faults = true) :
      CleanerStep σ cutoff d (.entries (n :: todo) cleaned) .idle (.entries todo cleaned)
  | kept {n todo cleaned} (hfaults : σ.faults = true) :
      CleanerStep σ cutoff d (.remove n todo cleaned) .idle (.entries todo cleaned)

/-! ## `list_pending_pcaps` -/

/-- The body of the loop of `list_pending_pcaps`, from the answers to `is_file`, `modified`
and `is_marked`: whether the entry is pushed. -/
def listEntry (cutoff : Option Time) (n : Name) (isFile : Bool) (modified : Option Time)
    (isMarked : Bool) : Except IoError Bool :=
  if !isFile then .ok false
  else if !isPendingName n then .ok false
  else
    match cutoff with
    | none => .ok (!isMarked)
    | some cutoff =>
        match modified with
        | none => .error .notFound
        | some mtime => if cutoff < mtime then .ok false else .ok (!isMarked)

/-- The order of `Option<SystemTime>`: what has no time comes first. -/
def timeLe : Option Time → Option Time → Bool
  | none, _ => true
  | some _, none => false
  | some s, some t => decide (s ≤ t)

/-- `files.sort_by_key(key)`, which is stable. -/
def sortByKey (key : Name → Option Time) (files : List Name) : List Name :=
  files.mergeSort fun p q => timeLe (key p) (key q)

/-- Where a call of `list_pending_pcaps` is: the names that are left and the files found. -/
inductive Lister where
  | entries (todo found : List Name)
  | done (result : Except IoError (List Name))

/-- An answer that is no instead of yes where a call has failed. -/
def Answers (σ : Setting) (answer actual : Bool) : Prop :=
  answer = actual ∨ (σ.faults = true ∧ answer = false)

/-- One step of `list_pending_pcaps`. -/
inductive ListerStep (σ : Setting) (cutoff : Option Time) (d : Disk) : Lister → Lister → Prop
  | entry {n todo found isFile isMarked pushed} (hfile : Answers σ isFile (d.isFile n))
      (hmarked : Answers σ isMarked (d.isMarked n))
      (h : listEntry cutoff n isFile (d.modified n) isMarked = .ok pushed) :
      ListerStep σ cutoff d (.entries (n :: todo) found)
        (.entries todo (if pushed then found ++ [n] else found))
  | entryError {n todo found isFile isMarked e} (hfile : Answers σ isFile (d.isFile n))
      (h : listEntry cutoff n isFile (d.modified n) isMarked = .error e) :
      ListerStep σ cutoff d (.entries (n :: todo) found) (.done (.error e))
  | sort {found} (key : Name → Option Time)
      (hkey : ∀ n, key n = d.modified n ∨ (σ.faults = true ∧ key n = none)) :
      ListerStep σ cutoff d (.entries [] found) (.done (.ok (sortByKey key found)))
  -- an entry cannot be read, or `metadata` fails
  | fail {n todo found} (e : IoError) (hfaults : σ.faults = true) :
      ListerStep σ cutoff d (.entries (n :: todo) found) (.done (.error e))

/-- `read_dir`: every file is among the entries, and no entry comes twice. An entry that
cannot be read is left out. -/
structure ReadDir (σ : Setting) (d : Disk) (entries : List Name) : Prop where
  nodup : entries.Nodup
  complete : σ.faults = false → ∀ n, d.isFile n = true → n ∈ entries

/-! ## `check_file` -/

/-- Where a call of `check_file` is. `inp` is the inode that it reads, `input` what it has
read of it. -/
inductive Checker where
  | check
  | stat
  | openSrc (inBytes : Nat)
  | analyze (inp : Ino Path) (inBytes : Nat) (input : Bytes)
  | done (outcome : Outcome)

namespace Checker

/-- Where a call goes on when the call it is about to make fails with `e`. -/
def failed (e : IoError) : Checker → Checker
  | check => stat  -- `exists` is then false
  | stat | openSrc _ | analyze _ _ _ => done (.failed (.pcap (.io e)))
  | done outcome => done outcome

/-- The path that has to be there for the next call. -/
def needs (n : Name) : Checker → Option Path
  | stat | openSrc _ => some (srcPath n)
  | _ => none

def isDone : Checker → Bool
  | done _ => true
  | _ => false

end Checker

/-- One step of `check_file` for the file `n`. It changes no file. -/
inductive CheckerStep (σ : Setting) (n : Name) (fs : FileSystem Path) : Checker → Checker → Prop
  -- `is_marked`
  | marked (h : fs.dir (markerPath n) ≠ none) : CheckerStep σ n fs .check (.done .skipped)
  | unmarked (h : fs.dir (markerPath n) = none) : CheckerStep σ n fs .check .stat
  -- `analyze_pcap_with_options`
  | stat {i content} (hdir : fs.dir (srcPath n) = some i) (hdata : fs.data i = some content) :
      CheckerStep σ n fs .stat (.openSrc content.length)
  | openSrc {inBytes i} (hdir : fs.dir (srcPath n) = some i) :
      CheckerStep σ n fs (.openSrc inBytes) (.analyze i inBytes [])
  | readSrc {inp inBytes input content} (k : Nat) (hdata : fs.data inp = some content)
      (hmore : input.length < content.length) (hk : 0 < k) :
      CheckerStep σ n fs (.analyze inp inBytes input)
        (.analyze inp inBytes (input ++ (content.drop input.length).take k))
  | analyzePanic {inp inBytes input fault}
      (h : analyzePcap σ.build (display n) input = .error (.panic fault)) :
      CheckerStep σ n fs (.analyze inp inBytes input) (.done .panicked)
  | analyzeError {inp inBytes input content err} (hdata : fs.data inp = some content)
      (hdetects : Detects (display n) content input err)
      (h : analyzePcap σ.build (display n) input = .error (.error err)) :
      CheckerStep σ n fs (.analyze inp inBytes input) (.done (.failed (.pcap err)))
  | analyzeDone {inp inBytes input content stats} (hdata : fs.data inp = some content)
      (hend : content.length ≤ input.length)
      (h : analyzePcap σ.build (display n) input = .ok stats) :
      CheckerStep σ n fs (.analyze inp inBytes input) (.done (.slimmed { stats with inBytes }))
  -- a path is gone, or any other failure
  | missing {c p} (hneeds : c.needs n = some p) (hgone : fs.dir p = none) :
      CheckerStep σ n fs c (c.failed .notFound)
  | fail {c} (e : IoError) (hfaults : σ.faults = true) (hrunning : c.isDone = false) :
      CheckerStep σ n fs c (c.failed e)

end PcapSlim.Coord
