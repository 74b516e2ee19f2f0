import Xv6Mmap.Lib.Runs
import Xv6Mmap.Proof.FsDir
import Xv6Mmap.Proof.FsWork

/-!
# Paths

`namex` follows a path from element to element. It is compared with a lookup in the directory graph
of the elements of the path one after the other, and with the references it started with.
-/

namespace Xv6Mmap.Fs

open Sequential

/-! ### The elements of a path -/

section Elements

variable {path rest : Path} {name : Name}

end Elements

/-! ### Looking up in the graph -/

namespace Graph

variable (G : Graph)

end Graph

section Lookup

variable {G : Graph} {parent : Bool} {i : Nat} {path rest : Path} {name : Name}

end Lookup

/-! ### The inode table during a walk -/

def single (ip iq : Nat) : Int := if iq = ip then 1 else 0

def Referenced (i : Nat) (s : State) : Prop :=
  ∃ ip < ninode, 0 < (s.itable ip).ref ∧ (s.itable ip).inum = i

/-- A file system in order, with a process that can look up paths in it: no inode is locked, the
process has a current directory, and what a directory names is there and stays there. -/
structure Resolvable (p : Nat) (s : State) : Prop where
  sound : Sound s.sb Set.univ [] s
  refs : ∀ ip < ninode, 0 ≤ (s.itable ip).ref
  unlocked : ∀ ip, (s.itable ip).locked = false
  cwd : ∃ ip < ninode, (s.proc p).cwd = some ip ∧ 0 < (s.itable ip).ref ∧
    (s.disk.node (s.itable ip).inum).type ≠ .free
  root : rootino < s.sb.ninodes
  sizes : ∀ i < s.sb.ninodes, (s.dinode i).type = .dir → (s.dinode i).size % direntSize = 0
  named : ∀ i, Graph.Named s.disk.node i → (s.disk.node i).type ≠ .free ∧
    ((s.disk.node i).nlink ≠ 0 ∨ Referenced i s)

/-- Since `s` the references `extra` have been taken and the inode `lock` has been locked; the disk,
the files and the processes are as they were. -/
structure Walking (s t : State) (extra : Nat → Int) (lock : Option Nat) : Prop where
  sound : Sound s.sb Set.univ lock.toList t
  nonneg : ∀ iq, 0 ≤ extra iq
  refs : ∀ iq, (t.itable iq).ref = (s.itable iq).ref + extra iq
  kept : ∀ iq, 0 < (s.itable iq).ref → (t.itable iq).inum = (s.itable iq).inum
  locks : ∀ iq, (t.itable iq).locked = decide (lock = some iq)
  disk : t.disk = s.disk
  ftable : t.ftable = s.ftable
  proc : t.proc = s.proc

namespace Walking

variable {s t : State} {extra : Nat → Int} {lock : Option Nat} {ip : Nat}

theorem setInode (hw : Walking s t extra lock) {node : Inode} {extra' : Nat → Int}
    {lock' : Option Nat}
    (hsound : Sound s.sb Set.univ lock'.toList { t with itable := upd t.itable ip node })
    (hnonneg : ∀ iq, 0 ≤ extra' iq) (hother : ∀ iq, iq ≠ ip → extra' iq = extra iq)
    (href : node.ref = (s.itable ip).ref + extra' ip)
    (hinum : 0 < (s.itable ip).ref → node.inum = (t.itable ip).inum)
    (hlocked : node.locked = decide (lock' = some ip))
    (hlock : ∀ iq, iq ≠ ip → (lock' = some iq ↔ lock = some iq)) :
    Walking s { t with itable := upd t.itable ip node } extra' lock' := by
  refine ⟨hsound, hnonneg, fun iq => ?_, fun iq hpos => ?_, fun iq => ?_, hw.disk, hw.ftable, hw.proc⟩ <;>
    by_cases hiq : iq = ip
  · subst hiq
    simp only [upd_self]
    exact href
  · simp only [upd_of_ne _ _ hiq]
    rw [hother iq hiq]
    exact hw.refs iq
  · subst hiq
    simp only [upd_self]
    exact (hinum hpos).trans (hw.kept iq hpos)
  · simp only [upd_of_ne _ _ hiq]
    exact hw.kept iq hpos
  · subst hiq
    simp only [upd_self]
    exact hlocked
  · simp only [upd_of_ne _ _ hiq]
    rw [hw.locks iq]
    exact decide_eq_decide.mpr (hlock iq hiq).symm

theorem dirAt {p dp : Nat} (hready : Resolvable p s) (hw : Walking s t extra (some dp))
    (hdir : (s.disk.node (t.itable dp).inum).type = .dir) :
    DirAt dp (s.disk.node (t.itable dp).inum).entries t := by
  have hpin : dp ∈ (some dp).toList := List.mem_cons_self
  obtain ⟨hdp, href, hvalid⟩ := hw.sound.pinned dp hpin
  have htype : (t.itable dp).copy.type = .dir := by
    rw [← (hw.sound.node_read hdp href hvalid).1, hw.disk, hdir]
  have hsync : t.dinode (t.itable dp).inum = (t.itable dp).copy := hw.sound.synced hpin
  have hsize : (t.itable dp).copy.size % direntSize = 0 := by
    have hdinode : t.dinode = s.dinode := congrArg Image.dinode hw.disk
    rw [← hsync, hdinode]
    refine hready.sizes _ (hw.sound.sb_eq ▸ hw.sound.table.inum_lt dp hdp href) ?_
    rw [← hdinode, hsync, htype]
  refine ⟨?_, hsync, hw.sound.loaded hpin, href, htype, ?_, by rw [hw.disk]⟩
  · exact { hw.sound.disk with entries := fun _ _ _ _ _ => trivial }
  · rw [← hw.disk, hw.sound.entries hpin htype, List.length_map, List.length_range]
    exact (Nat.mul_div_cancel' (Nat.dvd_of_mod_eq_zero hsize)).symm

end Walking

/-- Two entries of the inode table are unused. -/
def Room (s : State) : Prop :=
  ∃ a < ninode, ∃ b < ninode, a ≠ b ∧ (s.itable a).ref = 0 ∧ (s.itable b).ref = 0

section Namex

variable {s t u : State} {p ip i : Nat} {extra : Nat → Int} {lock : Option Nat}

def State.start (s : State) (p : Nat) (path : Path) : Nat :=
  if path.head? = some slash then rootino
  else ((s.proc p).cwd.map fun ip => (s.itable ip).inum).getD 0

end Namex

end Xv6Mmap.Fs
