import JsOs.HeapStatistics

/-!
# The order of releases

Releasing a set of blocks removes the boundaries between neighbours that are both free afterwards
and of which one was released; two fragments that were free before stay apart. This does not
depend on the order, although which block absorbs which does.
-/

namespace JsOs.ReleaseOrder

open MachineWords HeapModel HeapLayout HeapSurgery HeapFrames HeapOperations HeapChanges HeapRuns
open HeapStatistics TransitionRuns

section Fusing

/-- The payload of `b` is one of `ps`. -/
def released (ps : List ℕ) (b : Block) : Bool := decide (b.address + 32 ∈ ps)

def settle (ps : List ℕ) (b : Block) : Block := { b with free := b.free || released ps b }

/-- The boundary between the neighbours `b` and `c` goes. -/
def joins (ps : List ℕ) (b c : Block) : Bool :=
  (settle ps b).free && (settle ps c).free && (released ps b || released ps c)

def mergeHead (b : Block) : List Block → List Block
  | [] => [b]
  | c :: bs => merged b c :: bs

/-- The blocks after the payloads in `ps` have been released. -/
def fuse (ps : List ℕ) : List Block → List Block
  | [] => []
  | b :: bs =>
    if bs.head?.any (joins ps b) then mergeHead (settle ps b) (fuse ps bs)
    else settle ps b :: fuse ps bs

variable {ps qs : List ℕ} {b c : Block} {bs xs ys : List Block}

theorem merged_assoc (a b c : Block) : merged (merged a b) c = merged a (merged b c) := by
  simp [merged, Nat.add_assoc]

theorem settle_eq (h : released ps b = false) : settle ps b = b := by simp [settle, h]

theorem fuse_head (ps : List ℕ) (b : Block) (bs : List Block) : ∃ d ds,
    fuse ps (b :: bs) = d :: ds ∧ d.free = (settle ps b).free := by
  rw [fuse]
  split_ifs
  · cases fuse ps bs with
    | nil => exact ⟨_, _, rfl, rfl⟩
    | cons d ds => exact ⟨_, _, rfl, rfl⟩
  · exact ⟨_, _, rfl, rfl⟩

theorem fuse_congr (h : ∀ b ∈ bs, released ps b = released qs b) : fuse ps bs = fuse qs bs := by
  induction bs with
  | nil => rfl
  | cons b bs ih =>
    have hb : settle ps b = settle qs b := by rw [settle, settle, h b List.mem_cons_self]
    have hjoin : bs.head?.any (joins ps b) = bs.head?.any (joins qs b) := by
      cases bs with
      | nil => rfl
      | cons c bs => simp [joins, settle, h b (by simp), h c (by simp)]
    rw [fuse, fuse, hjoin, hb, ih fun c hc => h c (List.mem_cons_of_mem _ hc)]

theorem fuse_nil (bs : List Block) : fuse [] bs = bs := by
  induction bs with
  | nil => rfl
  | cons b bs ih =>
    have hjoin : bs.head?.any (joins [] b) = false := by
      cases bs <;> simp [joins, released]
    simp [fuse, hjoin, ih, settle, released]

/-- A block in use keeps its neighbours apart. -/
theorem fuse_middle (hused : b.free = false) (hb : released ps b = false) :
    fuse ps (xs ++ b :: ys) = fuse ps xs ++ b :: fuse ps ys := by
  have hb' := settle_eq hb
  induction xs with
  | nil =>
    have hjoin : ys.head?.any (joins ps b) = false := by
      cases ys <;> simp [joins, hb', hused]
    simp [fuse, hjoin, hb']
  | cons x xs ih =>
    cases xs with
    | nil =>
      have hjoin : joins ps x b = false := by simp [joins, hb', hused]
      simpa [fuse, hjoin] using ih
    | cons x' xs =>
      obtain ⟨d, ds, hd, -⟩ := fuse_head ps x' xs
      rw [List.cons_append, fuse, ih, fuse.eq_2 ps x, hd]
      cases hjoin : joins ps x x' <;> simp [hjoin, mergeHead]

theorem coalesce_cons (x c : Block) (xs : List Block) (b : Block) (ys : List Block) :
    coalesce (x :: c :: xs) b ys = x :: coalesce (c :: xs) b ys := by
  cases ha : (c :: xs).getLast? with
  | none => simp at ha
  | some a =>
    simp only [coalesce, List.getLast?_cons_cons, List.dropLast_cons_cons, ha]
    split_ifs <;> rfl

theorem absorbNext_free (hc : c.free = true) : absorbNext b (c :: ys) = merged b c :: ys := by
  simp [absorbNext, hc]

/-- A block that is merged with its right neighbour first, or last. -/
theorem coalesce_mergeHead (x : Block) (hx : x.free = true) (hc : c.free = true)
    (hb : b.free = true) (xs ys : List Block) :
    coalesce (mergeHead x (c :: xs)) b ys = mergeHead x (coalesce (c :: xs) b ys) := by
  obtain ⟨e, es, he, -, hfree, -⟩ := absorbNext_head b ys
  have he' := hfree.trans hb
  cases xs with
  | nil =>
    have hmerged : (merged x c).free = true := hx
    simp [mergeHead, coalesce, hc, he, hmerged, absorbNext_free he', merged_assoc]
  | cons d xs =>
    rw [mergeHead, coalesce_cons, coalesce_cons]
    rfl

/-- The payload of a block is at the end of its header, so equal payloads are one block. -/
theorem released_cons (ps : List ℕ) (b c : Block) (hne : c.address ≠ b.address) :
    released ((b.address + 32) :: ps) c = released ps c := by
  simp [released, hne]

/-- The released block, free, takes in what is free behind it. -/
theorem fuse_absorbNext (ps : List ℕ) (hys : ∀ y ∈ ys, y.address ≠ b.address) :
    fuse ((b.address + 32) :: ps) (b :: ys) = absorbNext { b with free := true } (fuse ps ys) := by
  have hb : released ((b.address + 32) :: ps) b = true := by simp [released]
  have hsettle : settle ((b.address + 32) :: ps) b = { b with free := true } := by
    simp [settle, hb]
  have hright : fuse ((b.address + 32) :: ps) ys = fuse ps ys :=
    fuse_congr fun y hy => released_cons ps b y (hys y hy)
  cases ys with
  | nil => simp [fuse, hsettle, absorbNext]
  | cons y ys =>
    obtain ⟨d, ds, hd, hdfree⟩ := fuse_head ps y ys
    have hy := released_cons ps b y (hys y List.mem_cons_self)
    have hjoin : joins ((b.address + 32) :: ps) b y = d.free := by
      simp [joins, hb, hdfree, settle, hy]
    rw [fuse, hright, hd, hsettle, List.head?_cons, Option.any_some, hjoin]
    cases hfree : d.free <;> simp [absorbNext, hfree, mergeHead]

/-- `heap_release` on fused blocks. -/
theorem fuse_release (ps : List ℕ) (hxs : ∀ x ∈ xs, x.address ≠ b.address)
    (hys : ∀ y ∈ ys, y.address ≠ b.address) :
    fuse ((b.address + 32) :: ps) (xs ++ b :: ys) =
      coalesce (fuse ps xs) { b with free := true } (fuse ps ys) := by
  have hb : released ((b.address + 32) :: ps) b = true := by simp [released]
  have hsettle : settle ((b.address + 32) :: ps) b = { b with free := true } := by
    simp [settle, hb]
  have hnil := fuse_absorbNext ps hys
  induction xs with
  | nil => exact hnil
  | cons x xs ih =>
    have hx := released_cons ps b x (hxs x List.mem_cons_self)
    have hx' : settle ((b.address + 32) :: ps) x = settle ps x := by rw [settle, settle, hx]
    cases xs with
    | nil =>
      obtain ⟨e, es, he, -, hfree, -⟩ := absorbNext_head { b with free := true } (fuse ps ys)
      have hjoin : joins ((b.address + 32) :: ps) x b = (settle ps x).free := by
        simp [joins, hsettle, hb, hx']
      rw [List.singleton_append, fuse, hnil, he, hx', List.head?_cons, Option.any_some, hjoin]
      cases hxfree : (settle ps x).free <;>
        simp [coalesce, fuse, hxfree, he, mergeHead, absorbNext_free hfree]
    | cons x' xs =>
      have hrest := ih fun z hz => hxs z (List.mem_cons_of_mem _ hz)
      have hx'' := released_cons ps b x' (hxs x' (by simp))
      obtain ⟨d, ds, hd, hdfree⟩ := fuse_head ps x' xs
      have hjoin : joins ((b.address + 32) :: ps) x x' = joins ps x x' := by
        simp [joins, settle, hx, hx'']
      rw [List.cons_append, fuse, hrest, hx', fuse.eq_2 ps x, hd, List.cons_append, List.head?_cons,
        List.head?_cons, Option.any_some, Option.any_some, hjoin]
      cases hxx : joins ps x x' with
      | false => simp [coalesce_cons]
      | true =>
        simp only [joins, Bool.and_eq_true] at hxx
        rw [if_pos rfl, if_pos rfl, coalesce_mergeHead _ hxx.1.1 (hdfree.trans hxx.1.2) rfl]

end Fusing

section Releases

variable {h h' : Heap} {bs : List Block} {ps qs : List ℕ}

theorem Tiles.bounds_unique {a a' e e' : ℕ} (hb : Tiles a e bs) (hb' : Tiles a' e' bs)
    (hne : bs ≠ []) : a = a' ∧ e = e' := by
  have hbegin := (hb.headAddress_eq hne 0).symm.trans (hb'.headAddress_eq hne 0)
  have hsum := Tiles.sum_eq hb
  have hsum' := Tiles.sum_eq hb'
  omega

/-- The block list determines what `heap_stats` returns. -/
theorem heapStats_congr (W : WellFormed h bs) (W' : WellFormed h' bs) :
    heapStats h = heapStats h' := by
  obtain ⟨hbegin, hend⟩ := Tiles.bounds_unique W.layout.tiles W'.layout.tiles W.layout.nonempty
  rw [heapStats_eq W.layout, heapStats_eq W'.layout, hbegin, hend, W.count_eq, W'.count_eq]

/-- Releasing the blocks of `ps` one after the other fuses the block list. -/
theorem releases_wellFormed (W : WellFormed h bs) (hnodup : ps.Nodup)
    (hps : ∀ p ∈ ps, ∃ b ∈ bs, b.free = false ∧ p = b.address + 32) :
    WellFormed (ps.foldl heapRelease h) (fuse ps bs) := by
  induction ps using List.reverseRecOn with
  | nil => rwa [List.foldl_nil, fuse_nil]
  | append_singleton ps p ih =>
    obtain ⟨hps', hp⟩ := List.forall_mem_append.mp hps
    obtain ⟨hnodup', -, hnew⟩ := List.nodup_append.mp hnodup
    obtain ⟨b, hb, hused, rfl⟩ := hp p (List.mem_singleton_self p)
    obtain ⟨xs, ys, rfl⟩ := List.append_of_mem hb
    have hkept : released ps b = false := by
      simp only [released, decide_eq_false_iff_not]
      exact fun hmem => hnew _ hmem _ (List.mem_singleton_self _) rfl
    have W' := ih hnodup' hps'
    rw [fuse_middle hused hkept] at W'
    have hW := release_wellFormed W' hused
    -- no other block has the address of `b`
    have T := W.layout.tiles.middle
    have hxs : ∀ x ∈ xs, x.address ≠ b.address := fun x hx => by
      have hend := (T.1.mem hx).2.1
      omega
    have hys : ∀ y ∈ ys, y.address ≠ b.address := fun y hy => by
      have hbegin := (T.2.2.2.mem hy).1
      omega
    rw [← fuse_release ps hxs hys] at hW
    have hset : fuse (ps ++ [b.address + 32]) (xs ++ b :: ys) =
        fuse ((b.address + 32) :: ps) (xs ++ b :: ys) :=
      fuse_congr fun c _ => by simp [released, or_comm]
    rwa [List.foldl_append, List.foldl_cons, List.foldl_nil, hset]

end Releases

/-- In every reachable heap, releasing distinct live pointers in two orders leaves one and the same
block list, headers included, and the same statistics. -/
theorem release_order (r : Region) {es : List Event} {s : Client} (hrun : Run Step r.start es s)
    {ps qs : List ℕ} (hperm : ps.Perm qs) (hnodup : ps.Nodup)
    (hlive : ∀ p ∈ ps, (s.live p).isSome) :
    ∃ bs, Layout (ps.foldl heapRelease s.heap) bs ∧ Layout (qs.foldl heapRelease s.heap) bs ∧
      heapStats (ps.foldl heapRelease s.heap) = heapStats (qs.foldl heapRelease s.heap) := by
  obtain ⟨bs, K⟩ := r.run_holds hrun
  have hps : ∀ p ∈ ps, ∃ b ∈ bs, b.free = false ∧ p = b.address + 32 :=
    fun p hp => K.live_block (hlive p hp)
  have W := releases_wellFormed K.wellFormed hnodup hps
  have W' := releases_wellFormed K.wellFormed (hperm.nodup_iff.mp hnodup)
    fun p hp => hps p (hperm.mem_iff.mpr hp)
  have hfuse : fuse qs bs = fuse ps bs :=
    fuse_congr fun b _ => by simp only [released, hperm.mem_iff]
  rw [hfuse] at W'
  exact ⟨fuse ps bs, W.layout, W'.layout, heapStats_congr W W'⟩

/-- Two pointers with a fragment between them. -/
theorem release_order_smallRegion : ∃ s,
    Run Step smallRegion.start
      [(.allocate 96, 4128), (.allocate 32, 4256), (.reallocate 4128 16, 4128)] s ∧
    ∃ bs, Layout (heapRelease (heapRelease s.heap 4128) 4256) bs ∧
      Layout (heapRelease (heapRelease s.heap 4256) 4128) bs := by
  obtain ⟨s, hrun, hlive⟩ := Run.of_nextCall (s := smallRegion.start)
    (fun s => ((s.live 4128).isSome, (s.live 4256).isSome))
    (show (List.foldlM (nextCall Legal call) _ [(.allocate 96, 4128), (.allocate 32, 4256),
      (.reallocate 4128 16, 4128)]).map _ = some (true, true) by decide +kernel)
  simp only [Prod.mk.injEq] at hlive
  obtain ⟨bs, L, L', -⟩ := release_order smallRegion hrun (List.Perm.swap 4256 4128 [])
    (by decide) (by simpa using hlive)
  exact ⟨s, hrun, bs, L, L'⟩

end JsOs.ReleaseOrder
