import Xv6Mmap.Lib.Keeps
import Xv6Mmap.System

/-!
# The memory code leaves the process table alone

Allocating, walking, mapping, unmapping and copying change memory and the allocator only. So what
happens to the process table can be read off the functions that write it.
-/

namespace Xv6Mmap

open Sequential

/-- An access through the direct map, which traps when the address is not in RAM. -/
theorem access_keeps {α : Type} {c : Prop} [Decidable c] {e : Panic} (v : Kernel → α)
    (g : Kernel → Kernel) (hg : ∀ s, (g s).proc = s.proc) :
    Keeps Kernel.proc (fun s => if c then .ok (v s) (g s) else .error e s : K α) := fun s => by
  by_cases hc : c
  · exact .of_ok (if_pos hc) (hg s)
  · exact .of_error (if_neg hc) rfl

theorem loadWord_keeps (a : Nat) : Keeps Kernel.proc (loadWord a) := access_keeps _ _ fun _ => rfl

theorem storeWord_keeps (a w : Nat) : Keeps Kernel.proc (storeWord a w) :=
  access_keeps _ _ fun _ => rfl

theorem zeroPages_keeps (pa n : Nat) : Keeps Kernel.proc (zeroPages pa n) :=
  access_keeps _ _ fun _ => rfl

theorem copyPages_keeps (dst src n : Nat) : Keeps Kernel.proc (copyPages dst src n) :=
  access_keeps _ _ fun _ => rfl

theorem storeBytes_keeps (a : Nat) (xs : List Nat) : Keeps Kernel.proc (storeBytes a xs) :=
  access_keeps _ _ fun _ => rfl

theorem copyTrapframe_keeps (dst src : Nat) : Keeps Kernel.proc (copyTrapframe dst src) :=
  access_keeps _ _ fun _ => rfl

theorem panic_keeps {α : Type} (e : Panic) : Keeps Kernel.proc (panic e : K α) := fun _ => ⟨rfl⟩

theorem getProc_keeps (p : Nat) : Keeps Kernel.proc (getProc p) := fun _ => ⟨rfl⟩

theorem modifyKmem_keeps (f : Kmem → Kmem) : Keeps Kernel.proc (modifyKmem f) := fun _ => ⟨rfl⟩

theorem checkIndex_keeps (i : Int) (size : Nat) : Keeps Kernel.proc (checkIndex i size) :=
  .ite (.pure _) (panic_keeps _)

/-! ### The allocator -/

theorem incrPaRef_keeps (pa : Nat) : Keeps Kernel.proc (incrPaRef pa) := by
  unfold incrPaRef
  exact .bind .get fun _ => .when (panic_keeps _) fun _ =>
    .bind (checkIndex_keeps _ _) fun _ => modifyKmem_keeps _

theorem incrHugePaRef_keeps (pa : Nat) : Keeps Kernel.proc (incrHugePaRef pa) := by
  unfold incrHugePaRef
  exact .bind .get fun _ => .when (panic_keeps _) fun _ =>
    .bind (checkIndex_keeps _ _) fun _ => modifyKmem_keeps _

theorem kfree_keeps (pa : Nat) : Keeps Kernel.proc (kfree pa) := by
  unfold kfree
  exact .bind .get fun _ => .when (panic_keeps _) fun _ =>
    .bind (checkIndex_keeps _ _) fun _ => .bind (checkIndex_keeps _ _) fun _ =>
    .when (panic_keeps _) fun _ => .when (modifyKmem_keeps _) fun _ => .bind .get fun _ =>
    .ite (.bind (zeroPages_keeps _ _) fun _ => modifyKmem_keeps _) (.pure _)

theorem kfreeHuge_keeps (pa : Nat) : Keeps Kernel.proc (kfreeHuge pa) := by
  unfold kfreeHuge
  exact .bind .get fun _ => .when (panic_keeps _) fun _ => .bind (checkIndex_keeps _ _) fun _ =>
    .when (panic_keeps _) fun _ => .when (modifyKmem_keeps _) fun _ => .bind .get fun _ =>
    .ite (.bind (zeroPages_keeps _ _) fun _ => modifyKmem_keeps _) (.pure _)

theorem kalloc_keeps : Keeps Kernel.proc kalloc := by
  unfold kalloc
  refine .bind .get fun s => ?_
  split
  · exact .bind (.modify fun _ => rfl) fun _ => .pure _
  · exact .bind (checkIndex_keeps _ _) fun _ => .bind (modifyKmem_keeps _) fun _ => .bind .get fun _ =>
      .ite (.bind (zeroPages_keeps _ _) fun _ => .bind (modifyKmem_keeps _) fun _ => .pure _) (.pure _)

theorem kallocHuge_keeps : Keeps Kernel.proc kallocHuge := by
  unfold kallocHuge
  refine .bind .get fun s => ?_
  split
  · exact .bind (.modify fun _ => rfl) fun _ => .pure _
  · exact .bind (modifyKmem_keeps _) fun _ => .bind (zeroPages_keeps _ _) fun _ =>
      .bind (modifyKmem_keeps _) fun _ => .pure _

/-! ### Page tables -/

theorem walkLevel_keeps (pagetable level va : Nat) (alloc : Bool) :
    Keeps Kernel.proc (walkLevel pagetable level va alloc) := by
  unfold walkLevel
  exact .bind (loadWord_keeps _) fun _ => .ite (.pure _) <| .ite
    (.bind kalloc_keeps fun _ => .ite (.pure _) <| .bind (zeroPages_keeps _ _) fun _ =>
      .bind (storeWord_keeps _ _) fun _ => .pure _)
    (.pure _)

theorem walk_keeps (pagetable va : Nat) (alloc : Bool) :
    Keeps Kernel.proc (walk pagetable va alloc) := by
  unfold walk
  refine .when (panic_keeps _) fun _ => .bind (walkLevel_keeps _ _ _ _) fun middle => ?_
  cases middle with
  | none => exact .pure _
  | some middle =>
      refine .bind (walkLevel_keeps _ _ _ _) fun low => ?_
      cases low <;> exact .pure _

theorem walkHuge_keeps (pagetable va : Nat) (alloc : Bool) :
    Keeps Kernel.proc (walkHuge pagetable va alloc) := by
  unfold walkHuge
  refine .when (panic_keeps _) fun _ => .bind (walkLevel_keeps _ _ _ _) fun middle => ?_
  cases middle with
  | none => exact .pure _
  | some middle =>
      exact .bind (loadWord_keeps _) fun _ => .ite
        (.bind (kfree_keeps _) fun _ => .bind (loadWord_keeps _) fun _ =>
          .bind (storeWord_keeps _ _) fun _ => .pure _)
        (.pure _)

theorem walkaddr_keeps (pagetable va : Nat) : Keeps Kernel.proc (walkaddr pagetable va) := by
  unfold walkaddr
  exact .ite (.pure _) <| .bind (walk_keeps _ _ _) fun _ => .ite (.pure _) <|
    .bind (loadWord_keeps _) fun _ => .ite (.pure _) (.pure _)

theorem mapPage_keeps (pagetable a pa perm : Nat) :
    Keeps Kernel.proc (mapPage pagetable a pa perm) := by
  unfold mapPage
  exact .bind (walk_keeps _ _ _) fun _ => .ite (.pure _) <| .bind (loadWord_keeps _) fun _ =>
    .when (panic_keeps _) fun _ => .bind (storeWord_keeps _ _) fun _ => .pure _

theorem mappagesFrom_keeps (pagetable perm n a pa : Nat) :
    Keeps Kernel.proc (mappagesFrom pagetable perm n a pa) := by
  induction n generalizing a pa with
  | zero => exact mapPage_keeps _ _ _ _
  | succ n ih => exact .bind (mapPage_keeps _ _ _ _) fun _ => .ite (.pure _) (ih _ _)

theorem mappages_keeps (pagetable va size pa perm : Nat) :
    Keeps Kernel.proc (mappages pagetable va size pa perm) :=
  .when (panic_keeps _) fun _ => mappagesFrom_keeps _ _ _ _ _

theorem uvmunmap_keeps (pagetable va n : Nat) (doFree : Bool) :
    Keeps Kernel.proc (uvmunmap pagetable va n doFree) := by
  refine .when (panic_keeps _) fun _ => .forUp (fun a => ?_) _ _
  unfold unmapPage
  exact .bind (walk_keeps _ _ _) fun _ => .when (panic_keeps _) fun _ =>
    .bind (loadWord_keeps _) fun _ => .when (panic_keeps _) fun _ => .when (panic_keeps _) fun _ =>
    .when (kfree_keeps _) fun _ => storeWord_keeps _ _

theorem uvmunmapHuge_keeps (pagetable va n : Nat) (doFree : Bool) :
    Keeps Kernel.proc (uvmunmapHuge pagetable va n doFree) := by
  refine .when (panic_keeps _) fun _ => .forUp (fun a => ?_) _ _
  unfold unmapHugePage
  exact .bind (walkHuge_keeps _ _ _) fun _ => .ite (.bind (loadWord_keeps _) fun _ => .ite
    (.when (panic_keeps _) fun _ => .when (kfreeHuge_keeps _) fun _ => storeWord_keeps _ _)
    (.pure _)) (.pure _)

theorem munmapPages_keeps (pagetable addr length : Nat) :
    Keeps Kernel.proc (munmapPages pagetable addr length) := by
  refine .forUp (fun a => ?_) _ _
  unfold munmapPage
  exact .bind (walk_keeps _ _ _) fun _ => .ite (.bind (loadWord_keeps _) fun _ => .ite
    (.when (panic_keeps _) fun _ => .bind (kfree_keeps _) fun _ => storeWord_keeps _ _)
    (.pure _)) (.pure _)

/-! ### User memory -/

theorem uvmcreate_keeps : Keeps Kernel.proc uvmcreate :=
  .bind kalloc_keeps fun _ => .when (zeroPages_keeps _ _) fun _ => .pure _

theorem uvmdealloc_keeps (pagetable oldsz newsz : Nat) :
    Keeps Kernel.proc (uvmdealloc pagetable oldsz newsz) :=
  .ite (.pure _) (.when (uvmunmap_keeps _ _ _ _) fun _ => .pure _)

theorem uvmallocFrom_keeps (pagetable oldsz newsz perm n a : Nat) :
    Keeps Kernel.proc (uvmallocFrom pagetable oldsz newsz perm n a) := by
  induction n generalizing a with
  | zero => exact .pure _
  | succ n ih =>
      have hundo : Keeps Kernel.proc (do let _ ← uvmdealloc pagetable a oldsz; pure 0) :=
        .bind (uvmdealloc_keeps _ _ _) fun _ => .pure _
      exact .bind kalloc_keeps fun _ => .ite hundo <| .bind (zeroPages_keeps _ _) fun _ =>
        .bind (mappages_keeps _ _ _ _ _) fun _ =>
        .ite (.bind (kfree_keeps _) fun _ => hundo) (ih _)

theorem uvmalloc_keeps (pagetable oldsz newsz xperm : Nat) :
    Keeps Kernel.proc (uvmalloc pagetable oldsz newsz xperm) :=
  .ite (.pure _) (uvmallocFrom_keeps _ _ _ _ _ _)

theorem freewalk_keeps (depth pagetable : Nat) : Keeps Kernel.proc (freewalk depth pagetable) := by
  induction depth generalizing pagetable with
  | zero => exact panic_keeps _
  | succ depth ih =>
      exact .bind (.forUp (fun _ => .bind (loadWord_keeps _) fun _ =>
        .ite (.bind (ih _) fun _ => storeWord_keeps _ _) (.ite (panic_keeps _) (.pure _))) _ _)
        fun _ => kfree_keeps _

theorem uvmfree_keeps (pagetable sz : Nat) : Keeps Kernel.proc (uvmfree pagetable sz) :=
  .when (uvmunmap_keeps _ _ _ _) fun _ => freewalk_keeps _ _

theorem uvmcopyFrom_keeps (old new n i : Nat) : Keeps Kernel.proc (uvmcopyFrom old new n i) := by
  induction n generalizing i with
  | zero => exact .pure _
  | succ n ih =>
      have hundo : Keeps Kernel.proc (do uvmunmap new 0 (i / pgsize) true; pure (-1 : Int)) :=
        .bind (uvmunmap_keeps _ _ _ _) fun _ => .pure _
      exact .bind (walk_keeps _ _ _) fun _ => .when (panic_keeps _) fun _ =>
        .bind (loadWord_keeps _) fun _ => .when (panic_keeps _) fun _ =>
        .bind kalloc_keeps fun _ => .ite hundo <| .bind (copyPages_keeps _ _ _) fun _ =>
        .bind (mappages_keeps _ _ _ _ _) fun _ =>
        .ite (.bind (kfree_keeps _) fun _ => hundo) (ih _)

theorem uvmclear_keeps (pagetable va : Nat) : Keeps Kernel.proc (uvmclear pagetable va) :=
  .bind (walk_keeps _ _ _) fun _ => .when (panic_keeps _) fun _ =>
    .bind (loadWord_keeps _) fun _ => storeWord_keeps _ _

theorem copyoutFrom_keeps (pagetable rounds dstva : Nat) (src : List Nat) :
    Keeps Kernel.proc (copyoutFrom pagetable rounds dstva src) := by
  induction rounds generalizing dstva src with
  | zero => cases src <;> exact .pure _
  | succ rounds ih =>
      cases src with
      | nil => exact .pure _
      | cons x src =>
          exact .bind (walkaddr_keeps _ _) fun _ => .ite (.pure _) <|
            .bind (storeBytes_keeps _ _) fun _ => ih _ _

theorem copyout_keeps (pagetable dstva : Nat) (src : List Nat) :
    Keeps Kernel.proc (copyout pagetable dstva src) :=
  copyoutFrom_keeps _ _ _ _

theorem procPagetable_keeps (p : Nat) : Keeps Kernel.proc (procPagetable p) := by
  unfold procPagetable
  exact .bind uvmcreate_keeps fun _ => .ite (.pure _) <|
    .bind (mappages_keeps _ _ _ _ _) fun _ =>
    .ite (.bind (uvmfree_keeps _ _) fun _ => .pure _) <| .bind (getProc_keeps _) fun _ =>
    .bind (mappages_keeps _ _ _ _ _) fun _ =>
    .ite (.bind (uvmunmap_keeps _ _ _ _) fun _ => .bind (uvmfree_keeps _ _) fun _ => .pure _)
      (.pure _)

/-! ### Loading a program -/

theorem loadsegFrom_keeps (pagetable va : Nat) (file : List Nat) (offset sz n i : Nat) :
    Keeps Kernel.proc (loadsegFrom pagetable va file offset sz n i) := by
  induction n generalizing i with
  | zero => exact .pure _
  | succ n ih =>
      exact .bind (walkaddr_keeps _ _) fun _ => .when (panic_keeps _) fun _ =>
        .bind (storeBytes_keeps _ _) fun _ => .ite (.pure _) (ih _)

theorem execLoad_keeps (pagetable : Nat) (file : List Nat) (n off sz : Nat) :
    Keeps Kernel.proc (execLoad pagetable file n off sz) := by
  induction n generalizing off sz with
  | zero => exact .pure _
  | succ n ih =>
      exact .ite (.pure _) <| .ite (ih _ _) <| .ite (.pure _) <| .bind (uvmalloc_keeps _ _ _ _)
        fun _ => .ite (.pure _) <| .bind (loadsegFrom_keeps _ _ _ _ _ _ _) fun _ =>
        .ite (.pure _) (ih _ _)

theorem execArgs_keeps (pagetable sz stackbase : Nat) (argv : List (List Nat)) (sp : Nat)
    (ustack : List Nat) : Keeps Kernel.proc (execArgs pagetable sz stackbase argv sp ustack) := by
  induction argv generalizing sp ustack with
  | nil => exact .pure _
  | cons arg argv ih =>
      exact .ite (.pure _) <| .ite (.pure _) <| .bind (copyout_keeps _ _ _) fun _ =>
        .ite (.pure _) (ih _ _)

theorem execImage_keeps (pagetable : Nat) (file : List Nat) (argv : List (List Nat)) :
    Keeps Kernel.proc (execImage pagetable file argv) := by
  refine .bind (execLoad_keeps _ _ _ _ _) fun phase => ?_
  cases phase with
  | bad => exact .pure _
  | next sz =>
      refine .bind (uvmalloc_keeps _ _ _ _) fun _ => .ite (.pure _) <|
        .bind (uvmclear_keeps _ _) fun _ => .bind (execArgs_keeps _ _ _ _ _ _) fun phase => ?_
      cases phase with
      | bad => exact .pure _
      | next value =>
          exact .ite (.pure _) <| .bind (copyout_keeps _ _ _) fun _ => .ite (.pure _) (.pure _)

/-! ### Faults -/

theorem walk_kind_keeps (kind : PageKind) (pagetable va : Nat) (alloc : Bool) :
    Keeps Kernel.proc (kind.walk pagetable va alloc) := by
  cases kind
  · exact walk_keeps _ _ _
  · exact walkHuge_keeps _ _ _

theorem alloc_kind_keeps (kind : PageKind) : Keeps Kernel.proc kind.alloc := by
  cases kind
  · exact kalloc_keeps
  · exact kallocHuge_keeps

theorem free_kind_keeps (kind : PageKind) (pa : Nat) : Keeps Kernel.proc (kind.free pa) := by
  cases kind
  · exact kfree_keeps _
  · exact kfreeHuge_keeps _

theorem incrRef_kind_keeps (kind : PageKind) (pa : Nat) : Keeps Kernel.proc (kind.incrRef pa) := by
  cases kind
  · exact incrPaRef_keeps _
  · exact incrHugePaRef_keeps _

theorem forkCopyEntry_keeps (kind : PageKind) (newtable oldSlot a : Nat) :
    Keeps Kernel.proc (forkCopyEntry kind newtable oldSlot a) :=
  .bind (walk_kind_keeps _ _ _ _) fun _ => .bind (loadWord_keeps _) fun _ => storeWord_keeps _ _

theorem connect_keeps (kind : PageKind) (p addr leafSlot pa np : Nat) :
    Keeps Kernel.proc (connect kind p addr leafSlot pa np) := by
  unfold connect
  exact .bind (getProc_keeps _) fun _ => .bind (getProc_keeps _) fun _ => .ite
    (.bind (walk_kind_keeps _ _ _ _) fun _ => .ite (.bind (loadWord_keeps _) fun _ => .ite
      (.bind (loadWord_keeps _) fun _ => .bind (storeWord_keeps _ _) fun _ =>
        incrRef_kind_keeps _ _) (.pure _)) (.pure _)) (.pure _)

/-! ### Boot -/

theorem freerangeFrom_keeps (n pa : Nat) : Keeps Kernel.proc (freerangeFrom n pa) := by
  induction n generalizing pa with
  | zero => exact .pure _
  | succ n ih => exact .bind (kfree_keeps _) fun _ => ih _

theorem kinit_keeps : Keeps Kernel.proc kinit :=
  .bind .get fun _ => .bind (.bind (modifyKmem_keeps _) fun _ => freerangeFrom_keeps _ _)
    fun _ => modifyKmem_keeps _

theorem kallocs_keeps (n : Nat) : Keeps Kernel.proc (kallocs n) := by
  induction n with
  | zero => exact .pure _
  | succ n ih => exact .bind kalloc_keeps fun _ => ih

theorem uvmfirst_keeps (pagetable : Nat) (src : List Nat) :
    Keeps Kernel.proc (uvmfirst pagetable src) := by
  unfold uvmfirst
  exact .when (panic_keeps _) fun _ => .bind kalloc_keeps fun _ => .bind (zeroPages_keeps _ _)
    fun _ => .bind (mappages_keeps _ _ _ _ _) fun _ => storeBytes_keeps _ _

end Xv6Mmap
