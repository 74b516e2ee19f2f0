import Xv6Mmap.Proof.FsTxCalls

/-!
# Creating, and opening

`create` comes to an inode that is not known before: the one that it finds, or the one that `ialloc`
takes. Its block is written by the calls that create, and so counts only once.
-/

namespace Xv6Mmap.Fs

namespace Graph

variable (G : Graph)

theorem set_set (i : Nat) (node node' : Node) : (G.set i node).set i node' = G.set i node' :=
  upd_upd G i node node'

theorem set_self (i : Nat) (node : Node) : G.set i node i = node := upd_self G i node

theorem set_of_ne {i j : Nat} (node : Node) (hne : j ≠ i) : G.set i node j = G j := upd_of_ne G node hne

def setEntries (i : Nat) (entries : List Dirent) : Graph := G.set i { G i with entries := entries }

theorem setEntries_self (i : Nat) : G.setEntries i (G i).entries = G := upd_eq_self G i rfl

theorem setEntries_setEntries (i : Nat) (entries entries' : List Dirent) :
    (G.setEntries i entries).setEntries i entries' = G.setEntries i entries' := by
  rw [setEntries, setEntries, setEntries, set_self, set_set]

theorem entries_setEntries (i : Nat) (entries : List Dirent) :
    (G.setEntries i entries i).entries = entries := by rw [setEntries, set_self]

theorem set_setEntries (i : Nat) (node : Node) (entries : List Dirent) :
    (G.set i node).setEntries i entries = G.set i { node with entries := entries } := by
  rw [setEntries, set_self, set_set]

theorem set_setNlink (i : Nat) (node : Node) (n : Int) :
    (G.set i node).setNlink i n = G.set i { node with nlink := n } := by
  rw [setNlink, set_self, set_set]

theorem find_congr {G G' : Graph} {d : Nat} (hnode : G' d = G d) (name : Name) :
    G'.find d name = G.find d name := by rw [find, find, hnode]

theorem vacant_congr {G G' : Graph} {d : Nat} (hnode : G' d = G d) {k : Nat} :
    G'.Vacant d k ↔ G.Vacant d k := by rw [Vacant, Vacant, hnode]

theorem setEntry_eq (d k : Nat) (de : Dirent) :
    G.setEntry d k de = G.setEntries d (Slots.put (G d).entries k de) := rfl

end Graph

theorem put_second {de de' : Dirent} {k : Nat} (hpos : de.inum ≠ 0)
    (hk : k ≤ [de].length ∧ ∀ e, [de][k]? = some e → e.inum = 0) :
    Slots.put [de] k de' = [de, de'] := by
  have hone : k ≠ 0 := fun hzero => hpos (hk.2 de (by rw [hzero]; rfl))
  have hlen : ¬ k < [de].length := by
    rw [List.length_singleton]
    omega
  rw [Slots.put, if_neg hlen]
  rfl

def firstEntries (type : InodeType) (i d : Nat) : List Dirent :=
  if type = .dir then [entryFor i dot, entryFor d dotdot] else []

namespace Tx

open Sequential

section Create

variable {c : Setting} {hands : List (Nat × Nat)} {pins pins' : List Nat} {G : Graph}
  {tight bad : Prop} {K : List Block} {ip i dp d : Nat} (hsize : tight → c.sb.size ≤ bpb)

/-- What is known about an inode that is new, besides that nothing names it. -/
def Fresh (c : Setting) (G : Graph) (i : Nat) : Prop := i ≠ 0 ∧ i < c.sb.ninodes ∧ G.Loose c.anchors i

theorem ialloc_adds (type : InodeType) (t : Tx) :
    Wp (ialloc type) (fun r t' => match r with
      | none => t'.header = t.header
      | some ip => Grew [inodeBlock (t'.fs.itable ip).inum] 0 t t')
      (fun _ t' => ∃ i, Grew [inodeBlock i] 0 t t') t := by
  refine .get ?_
  cases hfind : (List.range t.fs.sb.ninodes).find? fun inum =>
      1 ≤ inum ∧ (t.fs.dinode inum).type = .free with
  | none => exact .pure rfl
  | some inum =>
      have hlogged : ∀ t' : Tx, t'.header = record t.header (inodeBlock inum) →
          Grew [inodeBlock inum] 0 t t' := fun t' ht =>
        .of_adds (D := []) (Adds.log (.of_header rfl) (.inr List.mem_cons_self) ht) le_rfl
      refine .bind (.of_ok rfl (.bind (.of_ok rfl (.bind ((((Sim.lift (iget inum)).wp
        (iget_inum inum _)).and (lift_header (iget inum) _)).mono (fun ip t' ht => .pure ?_)
        fun _ t' ht => ⟨inum, hlogged t' ht.2⟩)))))
      show Grew [inodeBlock (t'.fs.itable ip).inum] 0 t t'
      rw [ht.1]
      exact hlogged t' ht.2

theorem ialloc_steps {type : InodeType} (htype : type ≠ .free) :
    StepsTo tight bad K 0 (At c hands pins G) (ialloc type) fun i r s =>
      match r with
      | none => At c hands pins G s
      | some ip => (Fresh c G i ∧ ∀ hand ∈ hands, hand.1 ∈ pins → i ≠ hand.2) ∧
          (s.disk.node i).type ≠ .free ∧ At (c.straying i) ((ip, i) :: hands) pins
            (G.set i { type := type, nlink := 0, entries := [] }) s := fun t ht => by
  have hsub : ∀ i, [inodeBlock i] ⊆ inodeBlock i :: K := fun i =>
    List.cons_subset.mpr ⟨List.mem_cons_self, List.nil_subset _⟩
  have hrun : Runs bad (At c hands pins G) (Fs.ialloc type) _ := ialloc_at htype
  refine (((ialloc_sim type t).wp (hrun t.fs ht)).and (ialloc_adds type t)).mono
    (fun r t' h => ?_) fun e t' h => ?_
  · cases r with
    | none => exact ⟨0, h.1, fun _ => .of_header h.2⟩
    | some ip =>
        obtain ⟨⟨i, ⟨hpos, hlt, hloose, hne⟩, hnode, hat⟩, hgrew⟩ := h
        refine ⟨i, ⟨⟨⟨hpos, hlt, hloose⟩, hne⟩, hnode, hat⟩, fun _ => ?_⟩
        have hgrew : Grew [inodeBlock (t'.fs.itable ip).inum] 0 t t' := hgrew
        rw [(hat.hand List.mem_cons_self).2] at hgrew
        exact hgrew.mono (hsub i) le_rfl
  · obtain ⟨he, i, hgrew⟩ := h
    exact ⟨he, i, fun _ => hgrew.mono (hsub i) le_rfl⟩

include hsize

/-! ### The entries of a new inode -/

theorem linkDots_steps (hhand : (ip, i) ∈ hands) (hpin : ip ∈ pins) (hcover : Covers hands pins)
    (hi : i < c.sb.ninodes) (hd : d < c.sb.ninodes) (hK : inodeBlock i ∈ K) :
    Steps tight bad K 4 (At c hands pins G) (linkDots ip i d) fun r s => ∃ entries,
      (r = true → (G i).entries = [] → i % 0x10000 ≠ 0 →
        entries = [entryFor i dot, entryFor d dotdot]) ∧
      At c hands pins (G.setEntries i entries) s := by
  refine Steps.bind (m := 2) (dirlink_steps hsize hhand hpin hcover dot (entryFor_lt hi dot) hK)
    fun r => .or_pre (.lift_pre fun hr => ?_) (.lift_pre fun hr => .lift_pre fun _ =>
      .lift_pre fun _ => .exists_pre fun k => .lift_pre fun hk => ?_)
  · rw [hr, if_pos (by decide)]
    exact .pure fun s h => ⟨(G i).entries, by simp, by rwa [Graph.setEntries_self]⟩
  · rw [hr, if_neg (by decide)]
    refine Steps.bind (m := 0) (dirlink_steps hsize hhand hpin hcover dotdot (entryFor_lt hd dotdot) hK)
      fun r' => .or_pre (.lift_pre fun hr' => ?_) (.lift_pre fun hr' => .lift_pre fun _ =>
        .lift_pre fun _ => .exists_pre fun k' => .lift_pre fun hk' => ?_)
    · rw [hr']
      exact .pure fun s h => ⟨_, fun hfalse => by simp at hfalse, h⟩
    · rw [Graph.setEntry_eq, Graph.setEntry_eq, Graph.setEntries_setEntries, Graph.entries_setEntries]
      rw [Graph.Vacant, Graph.setEntry_eq, Graph.entries_setEntries] at hk'
      refine .pure fun s h => ⟨_, fun _ hnil hpos => ?_, h⟩
      have hfirst : Slots.put (G i).entries k (entryFor i dot) = [entryFor i dot] := by
        rw [hnil]
        rfl
      rw [hfirst] at hk' ⊢
      exact put_second (by rw [entryFor_inum]; exact hpos) hk'

/-- The new inode `i` has its entries, and its name in the directory `d` unless there is no room. -/
def NewLinked (c : Setting) (G : Graph) (ip i dp d : Nat) (name : Name) (type : InodeType) (r : Bool)
    (s : State) : Prop :=
  ∃ entries, (r = false ∧ At c [(ip, i), (dp, d)] [ip, dp] (G.setEntries i entries) s) ∨
    (r = true ∧ (((G i).entries = [] → i % 0x10000 ≠ 0 → entries = firstEntries type i d) ∧
      (G d).type = .dir ∧ G.find d name = none) ∧ ∃ k, G.Vacant d k ∧
      At c [(ip, i), (dp, d)] [ip, dp] ((G.setEntries i entries).setEntry d k (entryFor i name)) s)

theorem linkNewInode_steps (hid : i ≠ d) (name : Name) (type : InodeType)
    (hKi : inodeBlock i ∈ K) (hKd : inodeBlock d ∈ K) :
    Steps tight bad K 6 (At c [(ip, i), (dp, d)] [ip, dp] G) (linkNewInode dp ip name type)
      (NewLinked c G ip i dp d name type) := by
  have hip : (ip, i) ∈ [(ip, i), (dp, d)] := List.mem_cons_self
  have hdp : (dp, d) ∈ [(ip, i), (dp, d)] := .tail _ List.mem_cons_self
  have hpip : ip ∈ [ip, dp] := List.mem_cons_self
  have hpdp : dp ∈ [ip, dp] := .tail _ List.mem_cons_self
  have hnil : Covers [] [] := fun _ h => by cases h
  have hcover : Covers [(ip, i), (dp, d)] [ip, dp] := (hnil.cons dp d).cons ip i
  refine .zero_bind (getInode_steps hip hpip) fun node => .lift_pre fun hnode =>
    .zero_bind (getInode_steps hdp hpdp) fun parent => .lift_pre fun hparent => ?_
  rw [hnode.1, hparent.1]
  have hrest : ∀ dots entries, (dots = true → (G i).entries = [] → i % 0x10000 ≠ 0 →
      entries = firstEntries type i d) →
      Steps tight bad K 2 (At c [(ip, i), (dp, d)] [ip, dp] (G.setEntries i entries))
        (if dots then do
          let r ← dirlink dp name i
          pure (decide (0 ≤ r))
        else
          pure false) (NewLinked c G ip i dp d name type) := fun dots entries hentries => by
    have hsame : G.setEntries i entries d = G d := G.set_of_ne _ hid.symm
    refine .ite (fun hdots => Steps.bind (m := 0) (dirlink_steps hsize hdp hpdp hcover name
      (entryFor_lt hnode.2.2.2 name) hKd) fun r => .or_pre (.lift_pre fun hr => ?_)
      (.lift_pre fun hr => .lift_pre fun hdir => .lift_pre fun hfind => .exists_pre fun k =>
        .lift_pre fun hk => ?_)) fun _ => .pure fun s h => ⟨entries, .inl ⟨rfl, h⟩⟩
    · rw [hr]
      exact .pure fun s h => ⟨entries, .inl ⟨rfl, h⟩⟩
    · rw [hr]
      rw [hsame] at hdir
      rw [Graph.find_congr hsame] at hfind
      rw [Graph.vacant_congr hsame] at hk
      exact .pure fun s h => ⟨entries, .inr ⟨rfl, ⟨hentries hdots, hdir, hfind⟩, k, hk, h⟩⟩
  refine .ite (fun htype => ?_) fun htype => ?_
  · refine Steps.bind (m := 2) (linkDots_steps hsize hip hpip hcover hnode.2.2.2 hparent.2.2.2 hKi)
      fun dots => .exists_pre fun entries => .lift_pre fun hentries => hrest dots entries ?_
    rwa [firstEntries, if_pos htype]
  · refine (Steps.le (hrest true (G i).entries fun _ hempty _ => ?_) (Nat.le_add_left 2 4)).pre
      fun s h => by rwa [Graph.setEntries_self]
    rw [hempty, firstEntries, if_neg htype]

/-! ### `create` -/

/-- What becomes of the graph when `name` is created in the directory `d`, and the new node. -/
inductive Made (c : Setting) (G : Graph) (d : Nat) (name : Name) (type : InodeType) :
    Option Nat → Graph → Prop
  | refused : Made c G d name type none G
  | undone {i : Nat} {entries : List Dirent} : Fresh c G i →
      Made c G d name type none (G.set i { type := type, nlink := 0, entries := entries })
  | made {i k : Nat} {entries : List Dirent} : Fresh c G i → i ≠ d →
      (i % 0x10000 ≠ 0 → entries = firstEntries type i d) → (G d).type = .dir →
      G.find d name = none → G.Vacant d k →
      Made c G d name type (some i) (G.create d k i name type entries)

def Taken (c : Setting) (G : Graph) (i : Nat) : Option Nat → State → Prop
  | none => At c [] [] G
  | some ip => At c [(ip, i)] [ip] G

/-- The end of `createIn`, with the new inode `i`, which has one link. -/
theorem finishCreate_steps {type : InodeType} (hfresh : Fresh c G i) (hid : i ≠ d) (name : Name)
    (hKi : inodeBlock i ∈ K) (hKd : inodeBlock d ∈ K) :
    Steps tight bad K 6
      (At c [(ip, i), (dp, d)] [ip, dp] (G.set i { type := type, nlink := 1, entries := [] })) (do
        let done ← linkNewInode dp ip name type
        if done then
          if type = .dir then addLink dp 1
          iunlockput dp
          pure (some ip)
        else
          lift (modifyCopy ip fun copy => { copy with nlink := 0 })
          iupdate ip
          iunlockput ip
          iunlockput dp
          pure none) fun r s => ∃ G', Made c G d name type (r.map fun _ => i) G' ∧ Taken c G' i r s := by
  have hip : (ip, i) ∈ [(ip, i), (dp, d)] := List.mem_cons_self
  have hdp : (dp, d) ∈ [(ip, i), (dp, d)] := .tail _ List.mem_cons_self
  have hpip : ip ∈ [ip, dp] := List.mem_cons_self
  have hpdp : dp ∈ [ip, dp] := .tail _ List.mem_cons_self
  have hnil : Covers [] [] := fun _ h => by cases h
  have hsame := G.set_of_ne { type := type, nlink := 1, entries := [] } hid.symm
  refine Steps.bind (m := 0) (linkNewInode_steps hsize hid name type hKi hKd) fun done =>
    .exists_pre fun entries => .or_pre (.lift_pre fun hdone => ?_) (.lift_pre fun hdone =>
      .lift_pre fun hnew => .exists_pre fun k => .lift_pre fun hk => ?_)
  · -- undone: the node is freed, since nothing else can point to it
    rw [hdone, Graph.set_setEntries]
    refine .assoc (.zero_bind (setFields_steps hsize hip hpip hKi (f := fun _ => 0) (fun _ => rfl)
      (fun _ => rfl) (fun _ => rfl) fun _ => rfl) fun _ => ?_)
    rw [Graph.set_setNlink]
    have hsub : ∀ iq ∈ [dp], iq ∈ [ip, dp] := fun _ => .tail _
    exact .zero_bind (iunlockput_steps hsize hKi hsub (hnil.cons dp d)) fun _ =>
      .zero_bind (iunlockput_steps hsize hKd (fun _ h => by cases h) hnil) fun _ =>
      .pure fun _ h => ⟨_, .undone hfresh, h⟩
  · rw [hdone, if_pos rfl, Graph.set_setEntries]
    rw [hsame, Graph.find_congr hsame, Graph.set_self] at hnew
    rw [Graph.vacant_congr hsame] at hk
    have hsub : ∀ iq ∈ [ip], iq ∈ [ip, dp] := fun iq h =>
      List.mem_cons.mpr (.inl (List.mem_singleton.mp h))
    have hrest : ∀ G', G' = G.create d k i name type entries →
        Steps tight bad K 0 (At c [(ip, i), (dp, d)] [ip, dp] G') (do
          iunlockput dp
          pure (some ip)) fun r s => ∃ G', Made c G d name type (r.map fun _ => i) G' ∧
            Taken c G' i r s := fun G' hG' =>
      .zero_bind (iunlockput_second_steps hsize hKd hsub (hnil.cons ip i)) fun _ =>
        .pure fun _ h => ⟨G', hG' ▸ .made hfresh hid (hnew.1 rfl) hnew.2.1 hnew.2.2 hk, h⟩
    refine .ite (fun htype => .zero_bind (addLink_steps hsize hdp hpdp hKd 1) fun _ => hrest _ ?_)
      fun htype => hrest _ ?_
    · rw [Graph.create, if_pos htype]
    · rw [Graph.create, if_neg htype]

theorem createIn_steps {type : InodeType} (htype : type ≠ .free) (name : Name) (major minor : Int)
    (hK : inodeBlock d ∈ K) :
    StepsTo tight bad K 6 (At c [(dp, d)] [dp] G) (createIn dp name type major minor) fun i r s =>
      ∃ G', Made c G d name type (r.map fun _ => i) G' ∧ Taken c G' i r s := by
  have hnil : Covers [] [] := fun _ h => by cases h
  refine StepsTo.le (.bind (m := 6) (ialloc_steps htype) fun i r => ?_) (Nat.zero_add 6).le
  cases r with
  | none =>
      exact .zero_bind (iunlockput_steps hsize (.tail _ hK) (fun _ h => by cases h) hnil) fun _ =>
        .pure fun _ h => ⟨G, .refused, h⟩
  | some ip =>
      have hip : (ip, i) ∈ [(ip, i), (dp, d)] := List.mem_cons_self
      have hpip : ip ∈ [ip, dp] := List.mem_cons_self
      refine .lift_pre fun ⟨hfresh, hne⟩ => ?_
      have hid : i ≠ d := hne (dp, d) List.mem_cons_self List.mem_cons_self
      have hlock : Runs bad (fun s => (s.disk.node i = .free → ip ∉ [dp] → bad) ∧
          At (c.straying i) [(ip, i), (dp, d)] [dp]
            (G.set i { type := type, nlink := 0, entries := [] }) s) (ilock ip) _ := ilock_at hip
      refine .zero_bind (.lift (hlock.conseq (fun s h => ⟨fun hfree => ?_, h.2⟩)
        fun _ s h => h.2.settle hip hpip)) fun _ => .assoc (.zero_bind (setFields_steps hsize hip hpip
          List.mem_cons_self (f := fun _ => 1) (fun _ => rfl) (fun _ => rfl) (fun _ => rfl)
          fun _ => rfl) fun _ => ?_)
      · rw [hfree] at h
        exact absurd rfl h.1
      · rw [Graph.set_setNlink]
        exact finishCreate_steps hsize hfresh hid name List.mem_cons_self (.tail _ hK)

/-- What `create` does to the graph, and the node that it comes to. -/
inductive Created (c : Setting) (G : Graph) (path : Path) (type : InodeType) :
    Option Nat → Graph → Prop
  | refused : Created c G path type none G
  | found {d k : Nat} {name : Name} : G.resolve c.cwd path true = some (d, name) →
      G.find d name = some k → type = .file →
      (G (G.target d k)).type = .file ∨ (G (G.target d k)).type = .device →
      Created c G path type (some (G.target d k)) G
  | made {d : Nat} {name : Name} {r : Option Nat} {G' : Graph} :
      G.resolve c.cwd path true = some (d, name) → Made c G d name type r G' →
      Created c G path type r G'

variable (hshun : tight → G.Shuns c.stray c.cwd) (hroot : rootino < c.sb.ninodes)
  (hbad : G.Dangling c.anchors → bad)

include hshun hroot hbad

theorem create_steps {type : InodeType} (htype : type ≠ .free) (path : Path) (major minor : Int) :
    StepsTo tight bad K 7 (At c [] [] G) (create c.caller path type major minor) fun i r s =>
      ∃ G', Created c G path type (r.map fun _ => i) G' ∧ Taken c G' i r s := by
  have hnil : Covers [] [] := fun _ h => by cases h
  refine .zero_bind (namex_steps hshun hroot hbad hnil path true) fun r => ?_
  cases r with
  | none => exact .of_known (i := 0) (.pure fun s h => ⟨G, .refused, h.2⟩)
  | some found =>
      obtain ⟨dp, name⟩ := found
      refine .exists_pre fun d => .lift_pre fun hresolve => .lift_pre fun hnamed =>
        StepsTo.forget (inodeBlock d) (n := 6) ?_
      have hdp : (dp, d) ∈ [(dp, d)] := List.mem_cons_self
      have hpdp : dp ∈ [dp] := List.mem_cons_self
      refine .zero_bind (.lift (ilock_found hdp hnamed hbad)) fun _ => .lift_pre fun _ =>
        .zero_bind (dirlookup_steps hdp hpdp name) fun r => .lift_pre fun hdir => ?_
      cases r with
      | none =>
          exact .lift_pre fun _ => (createIn_steps hsize htype name major minor List.mem_cons_self).post
            fun i r s ⟨G', hmade, hat⟩ => ⟨G', .made hresolve hmade, hat⟩
      | some found =>
          obtain ⟨ip, off⟩ := found
          refine .exists_pre fun k => .lift_pre fun hfind => .lift_pre fun _ =>
            StepsTo.of_known (i := G.target d k) ?_
          have hip : (ip, G.target d k) ∈ [(ip, G.target d k)] := List.mem_cons_self
          have hpip : ip ∈ [ip] := List.mem_cons_self
          refine .zero_bind (iunlockput_second_steps hsize (.tail _ List.mem_cons_self)
            (fun _ h => by cases h) fun _ h => by cases h) fun _ =>
            .zero_bind (.lift (ilock_found hip (.inl (Graph.named_of_find hfind)) hbad)) fun _ =>
            .lift_pre fun _ => .zero_bind (getInode_steps hip hpip) fun node => .lift_pre fun hnode =>
            .ite (fun hfile => .pure fun s h => ?_) fun _ => ?_
          · rw [hnode.2.1] at hfile
            exact ⟨G, .found hresolve hfind hfile.1 hfile.2, h⟩
          · exact .zero_bind (iunlockput_steps hsize List.mem_cons_self (fun _ h => by cases h) hnil)
              fun _ => .pure fun _ h => ⟨G, .refused, h⟩

theorem createDrop_steps {type : InodeType} (htype : type ≠ .free) (path : Option (List UInt8))
    (major minor : Int) :
    Steps tight bad K 8 (At c [] [] G) (match argstr path with
      | none => pure (-1 : Int)
      | some path => do
        match ← create c.caller path type major minor with
        | none => pure (-1)
        | some ip => do
          iunlockput ip
          pure 0) fun _ s => At c [] [] G s ∨ ∃ path' r G', argstr path = some path' ∧
            Created c G path' type r G' ∧ At c [] [] G' s := by
  cases argstr path with
  | none => exact .pure fun _ h => .inl h
  | some path =>
      have hnil : Covers [] [] := fun _ h => by cases h
      refine (StepsTo.steps (StepsTo.bind (n := 7) (m := 0) (Q := fun _ _ s => ∃ r G',
        Created c G path type r G' ∧ At c [] [] G' s) (create_steps hsize hshun hroot hbad htype path
          major minor) fun i r => .exists_pre fun G' => .lift_pre fun hmade => ?_)).post
        fun _ s ⟨_, r, G', hmade, hat⟩ => .inr ⟨path, r, G', rfl, hmade, hat⟩
      cases r with
      | none => exact .pure fun s h => ⟨none, G', hmade, h⟩
      | some ip =>
          exact .zero_bind (iunlockput_steps hsize List.mem_cons_self (fun _ h => by cases h) hnil)
            fun _ => .pure fun s h => ⟨some i, G', hmade, h⟩

/-! ### `open` -/

/-- What looking for the inode does to the graph, and the node that it comes to. -/
inductive Opened (c : Setting) (G : Graph) (path : Path) (omode : Nat) : Option Nat → Graph → Prop
  | refused : Opened c G path omode none G
  | found {i : Nat} {name : Name} : G.resolve c.cwd path false = some (i, name) →
      Opened c G path omode (some i) G
  | created {r : Option Nat} {G' : Graph} : omode &&& oCreate ≠ 0 → Created c G path .file r G' →
      Opened c G path omode r G'

theorem openInode_steps (path : Path) (omode : Nat) :
    StepsTo tight bad K 7 (At c [] [] G) (openInode c.caller path omode) fun i r s =>
      ∃ G', Opened c G path omode (r.map fun _ => i) G' ∧ Taken c G' i r s := by
  have hnil : Covers [] [] := fun _ h => by cases h
  refine .ite (fun hcreate => (create_steps hsize hshun hroot hbad (by decide) path 0 0).post
    fun i r s ⟨G', hmade, hat⟩ => ⟨G', .created hcreate hmade, hat⟩) fun _ =>
    .zero_bind (namei_steps hshun hroot hbad hnil path) fun r => ?_
  cases r with
  | none => exact .of_known (i := 0) (.pure fun s h => ⟨G, .refused, h⟩)
  | some ip =>
      refine .exists_pre fun i => .exists_pre fun name => .lift_pre fun hresolve =>
        .lift_pre fun hnamed => .of_known (i := i) ?_
      have hip : (ip, i) ∈ [(ip, i)] := List.mem_cons_self
      refine .zero_bind (.lift (ilock_found hip hnamed hbad)) fun _ => .lift_pre fun _ =>
        .zero_bind (getInode_steps hip List.mem_cons_self) fun node => .lift_pre fun _ =>
        .ite (fun _ => ?_) fun _ => .pure fun s h => ⟨G, .found hresolve, h⟩
      exact .zero_bind (iunlockput_steps hsize List.mem_cons_self (fun _ h => by cases h) hnil)
        fun _ => .pure fun _ h => ⟨G, .refused, h⟩

end Create

end Tx

end Xv6Mmap.Fs
