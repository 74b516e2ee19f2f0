import Xv6Mmap.Proof.FsSound
import Xv6Mmap.Proof.MkfsImage

/-!
# The disk that mkfs makes

The image without files, on which the examples of the other modules run, is the one that the program
makes. It is intact, and the entries of its root directory are `.`, `..` and unused ones.
-/

namespace Xv6Mmap.Fs

def rootEntries : List Dirent :=
  { inum := rootino, name := dot } :: { inum := rootino, name := dotdot } ::
    List.replicate 62 { inum := 0, name := [] }

theorem mkfs_intact {ok : Dirent → Prop} (hok : ∀ de, de.inum < Mkfs.ninodes → ok de) :
    mkfs.Intact ok ∅ := by
  obtain ⟨made, hmain, himage⟩ := Mkfs.image_nil
  obtain ⟨s, hfinal⟩ := Mkfs.main_final (by decide) hmain
  rw [← himage]
  exact hfinal.image_intact (by decide) (by decide) hok

theorem mkfs_allocated {i : Nat} (halloc : (mkfs.dinode i).type ≠ .free) : i = rootino :=
  Decidable.byContradiction fun hne => halloc (by simp only [mkfs, if_neg hne, Dinode.empty])

theorem mkfs_root : (mkfs.node rootino).type ≠ .free ∧ (mkfs.node rootino).nlink ≠ 0 := by decide

/-- The first process starts with a file system in order. -/
theorem boot_sound : Sound mkfs.boot.sb ∅ [] mkfs.boot := by
  have hzero : ∀ ip, 0 < (mkfs.boot.itable ip).ref → ip = 0 := fun ip href => by
    refine Decidable.byContradiction fun hne => ?_
    simp only [Image.boot, if_neg hne] at href
    omega
  refine ⟨rfl, mkfs_intact fun de hde => hde, ⟨?_, ?_, ?_, ?_, ?_⟩, ?_, fun i _ hdead => ?_⟩
  · intro ip _ iq _ hp hq _
    rw [hzero ip hp, hzero iq hq]
  · intro ip _ hp
    rw [hzero ip hp]
    decide
  · exact fun _ _ _ hvalid => nomatch hvalid
  · exact fun _ _ _ hvalid => nomatch hvalid
  · exact fun _ _ _ hpoints => nomatch hpoints
  · exact fun _ h => nomatch h
  · -- the root has a link
    have hi : i = rootino := mkfs_allocated fun hfree => hdead.1 (by
      show (mkfs.node i).type = .free
      rw [Image.node, if_neg fun h => h.2 hfree]
      rfl)
    exact absurd (hi ▸ hdead.2) mkfs_root.2

end Xv6Mmap.Fs
