import Xv6Mmap.Proof.FsItrunc

/-!
# The directory graph

What the file system is about: numbered nodes, of which the directories have entries that name other
nodes. A path is looked up in the graph, and there are few ways in which the graph changes.
-/

namespace Xv6Mmap.Fs

abbrev Graph := Nat → Node

def entryFor (i : Nat) (name : Name) : Dirent := ({ inum := i % 0x10000, name := name } : Dirent).stored

theorem stored_inum (de : Dirent) : de.stored.inum = de.inum % 0x10000 := by
  show de.inum % 256 % 256 + 0x100 * (de.inum / 256 % 256 % 256) = de.inum % 0x10000
  omega

theorem entryFor_inum (i : Nat) (name : Name) : (entryFor i name).inum = i % 0x10000 := by
  rw [entryFor, stored_inum, Nat.mod_mod]

theorem entryFor_lt {i n : Nat} (hi : i < n) (name : Name) : (entryFor i name).inum < n := by
  rw [entryFor_inum]
  exact (Nat.mod_le _ _).trans_lt hi

namespace Graph

variable (G : Graph)

def find (d : Nat) (name : Name) : Option Nat :=
  (G d).entries.findIdx? (Dirent.Matches name)

def target (d k : Nat) : Nat := (((G d).entries[k]?).map Dirent.inum).getD 0

def walk (parent : Bool) : Nat → Nat → Path → Option (Nat × Name)
  | 0, _, _ => none
  | rounds + 1, i, path =>
    match skipelem path with
    | none => if parent then none else some (i, [])
    | some (name, path) =>
      if (G i).type ≠ .dir then none
      else if parent ∧ path = [] then some (i, name)
      else
        match G.find i name with
        | none => none
        | some k => walk parent rounds (G.target i k) path

def resolve (cwd : Nat) (path : Path) (parent : Bool) : Option (Nat × Name) :=
  G.walk parent (path.length + 1) (if path.head? = some slash then rootino else cwd) path

def Vacant (d k : Nat) : Prop :=
  k ≤ (G d).entries.length ∧ ∀ de, (G d).entries[k]? = some de → de.inum = 0

def Bare (i : Nat) : Prop := ∀ k de, 2 ≤ k → (G i).entries[k]? = some de → de.inum = 0

/-- A node that is free, or that can be freed meanwhile. -/
def Loose (anchors : Set Nat) (i : Nat) : Prop := G i = .free ∨ (i ∉ anchors ∧ (G i).nlink = 0)

/-! ### Changes -/

def set (i : Nat) (node : Node) : Graph := upd G i node

def setEntry (d k : Nat) (de : Dirent) : Graph := G.set d ((G d).setEntry k de)

def setNlink (i : Nat) (n : Int) : Graph := G.set i { G i with nlink := n }

def addLinks (i : Nat) (n : Int) : Graph := G.setNlink i (short ((G i).nlink + n))

def create (d k i : Nat) (name : Name) (type : InodeType) (entries : List Dirent) : Graph :=
  let G := (G.set i { type := type, nlink := 1, entries := entries }).setEntry d k (entryFor i name)
  if type = .dir then G.addLinks d 1 else G

def link (d k i : Nat) (name : Name) : Graph :=
  (G.addLinks i 1).setEntry d k (entryFor i name)

def unlink (d k i : Nat) : Graph :=
  let removed := G.setEntry d k { inum := 0, name := [] }
  (if (G i).type = .dir then removed.addLinks d (-1) else removed).addLinks i (-1)

/-- Nodes without links are freed, but none of those in `anchors`. -/
def Shed (anchors : Set Nat) (G G' : Graph) : Prop :=
  ∀ i, G' i = G i ∨ (i ∉ anchors ∧ (G i).nlink = 0 ∧ G' i = .free)

def Named (i : Nat) : Prop := i = rootino ∨ (i ≠ 0 ∧ ∃ d, ∃ de ∈ (G d).entries, de.inum = i)

/-- A lookup can come to a node that is free, or that can be freed meanwhile. -/
def Dangling (anchors : Set Nat) : Prop :=
  ∃ i, G.Named i ∧ G.Loose anchors i

/-- A walk does not come to the nodes `stray`. -/
structure Shuns (stray : Set Nat) (cwd : Nat) : Prop where
  root : rootino ∉ stray
  cwd : cwd ∉ stray
  entry : ∀ d ∉ stray, ∀ de ∈ (G d).entries, de.inum ≠ 0 → de.inum ∉ stray

theorem Shuns.addLinks {G : Graph} {stray : Set Nat} {cwd : Nat} (h : G.Shuns stray cwd) (i : Nat)
    (n : Int) : (G.addLinks i n).Shuns stray cwd where
  root := h.root
  cwd := h.cwd
  entry := fun d hd de hde => by
    have hentries : (G.addLinks i n d).entries = (G d).entries := by
      by_cases hdi : d = i
      · rw [hdi, Graph.addLinks, Graph.setNlink, Graph.set, upd_self]
      · rw [Graph.addLinks, Graph.setNlink, Graph.set, upd_of_ne _ _ hdi]
    exact h.entry d hd de (hentries ▸ hde)

end Graph

section Shed

variable {G G' : Graph} {anchors : Set Nat}

theorem Graph.Shed.refl (G : Graph) : Shed anchors G G := fun _ => .inl rfl

theorem Graph.Shed.of_ne_free (hshed : Shed anchors G G') {i : Nat} (hi : (G' i).type ≠ .free) :
    G' i = G i :=
  (hshed i).resolve_right fun h => hi (by rw [h.2.2]; rfl)

theorem Graph.Shed.set (hshed : Shed anchors G G') (i : Nat) (node : Node) :
    Shed anchors (G.set i node) (G'.set i node) := fun j => by
  by_cases hj : j = i
  · rw [hj, Graph.set, Graph.set, upd_self, upd_self]
    exact .inl rfl
  · rw [Graph.set, Graph.set, upd_of_ne _ _ hj, upd_of_ne _ _ hj]
    exact hshed j

theorem Graph.Shed.free (hshed : Shed anchors G G') {i : Nat} (hi : i ∉ anchors)
    (hnlink : (G i).nlink = 0) : Shed anchors G (G'.set i .free) := fun j => by
  by_cases hj : j = i
  · subst hj
    rw [Graph.set, upd_self]
    exact .inr ⟨hi, hnlink, rfl⟩
  · rw [Graph.set, upd_of_ne _ _ hj]
    exact hshed j

end Shed

/-! ### Names -/

structure Name.Valid (name : Name) : Prop where
  length_le : name.length ≤ dirsiz
  chars : ∀ c ∈ name, c ≠ 0 ∧ c < 256

theorem stored_eq {de : Dirent} (hinum : de.inum < 0x10000) (hname : Name.Valid de.name) :
    de.stored = de := by
  rw [stored_eq_key fun c hc => (hname.chars c hc).2, Nat.mod_eq_of_lt hinum, key,
    cut_eq_self hname.length_le fun c hc => (hname.chars c hc).1]

theorem empty_valid : Name.Valid [] := ⟨by decide, by decide⟩

end Xv6Mmap.Fs
