import ProtonDrive.ReadPrograms
import ProtonDrive.OfflineReads

/-!
# Which blocks a read accesses

The traces of file reads: which blocks an online read downloads, decrypts or looks up, compared
with those that its range overlaps.
-/

namespace ProtonDrive.BlockAccesses
open SlashPaths FallibleSteps DriveApi Programs Programs.Prog BlockedFiles OfflineReads
  ReadPrograms
open DriveSession hiding exec
open FileReads hiding readBlocks readCached readFromCache readFileContent readFile

variable {KR : Type}

section Traces

/-- The block that a query downloads, decrypts or reads from the block cache, from zero on. -/
def accessed : ReadQuery KR → Option ℤ
  | .fetchBlock b | .decrypt b _ _ => some (b.index - 1)
  | .getBlock _ _ idx => some idx
  | .stat _ | .getRevision _ _ _ _ | .hasBlocks | .putBlock _ _ _ _ => none

variable (C : Crypto KR) (w : World) {ε α β : Type}

def accesses (p : ReadOp KR ε α) (s : Session KR) : List ℤ :=
  (p.trace (exec C w) s).filterMap accessed

variable {C w}

theorem accesses_ask (q : ReadQuery KR) (f : ReadAnswer q → ReadOp KR ε α) (s : Session KR) :
    accesses C w (ReadPrograms.ask q >>= f) s =
      (accessed q).toList ++ accesses C w (f (exec C w q s).1) (exec C w q s).2 := by
  change List.filterMap accessed (q :: _) = _
  rw [List.filterMap_cons]
  cases accessed q <;> rfl

/-- What is accessed before a bind, and after it unless the first part failed. -/
theorem accesses_bind (p : ReadOp KR ε α) (f : α → ReadOp KR ε β) (s : Session KR) :
    accesses C w (p >>= f) s = accesses C w p s ++ match p.run (exec C w) s with
      | ⟨.ok a, s⟩ => accesses C w (f a) s
      | ⟨.error _, _⟩ => [] := by
  rw [accesses, trace_bind, List.filterMap_append]
  rcases p.run (exec C w) s with ⟨e | a, s'⟩ <;> rfl

theorem accesses_lookupBlock (linkID : LinkID) (revID : RevisionID) (idx : ℤ) (s : Session KR) :
    accesses C w (lookupBlock linkID revID idx : ReadOp KR ε _) s =
      if s.blocks = none then [] else [idx] := by
  rw [lookupBlock, accesses_ask]
  cases hb : s.blocks with
  | none =>
    simp only [exec, hb]
    rfl
  | some bc =>
    simp only [exec, hb, Option.isSome_some, if_true]
    rw [accesses_ask, exec, hb]
    rfl

theorem accesses_keepBlock (linkID : LinkID) (revID : RevisionID) (idx : ℤ) (data : Bytes)
    (s : Session KR) : accesses C w (keepBlock linkID revID idx data : ReadOp KR ε _) s = [] := by
  rw [keepBlock, accesses_ask]
  cases hb : s.blocks with
  | none =>
    simp only [exec, hb]
    rfl
  | some bc =>
    simp only [exec, hb, Option.isSome_some, if_true]
    rw [accesses_ask, exec, hb]
    rfl

/-- Reading a block accesses that block, and no other. -/
theorem accesses_readBlock (sessionKey : SessionKey) (linkID : LinkID) (revID : RevisionID)
    (b : Block) (s : Session KR) :
    accesses C w (readBlock sessionKey linkID revID b) s ≠ [] ∧
      ∀ i ∈ accesses C w (readBlock sessionKey linkID revID b) s, i = b.index - 1 := by
  rw [readBlock, accesses_bind, accesses_lookupBlock, run_lookupBlock]
  rcases hc : cachedBlock w linkID revID (b.index - 1) s with ⟨_ | cached, s₁⟩
  · dsimp only
    rw [accesses_ask, exec]
    rcases s₁.callAPI w fun srv => srv.block b.bareURL b.token with ⟨e | enc, s₂⟩
    · refine ⟨by simp [accessed], ?_⟩
      split_ifs <;> simp [accessed, accesses, trace]
    · dsimp only
      rw [accesses_ask, exec]
      dsimp only
      cases C.decrypt sessionKey enc with
      | none =>
        refine ⟨by simp [accessed], ?_⟩
        split_ifs <;> simp [accessed, accesses, trace]
      | some plain =>
        dsimp only
        rw [accesses_bind, accesses_keepBlock, run_keepBlock]
        refine ⟨by simp [accessed], ?_⟩
        split_ifs <;> simp [accessed, accesses, trace, Pure.pure]
  · -- a hit needs a block cache
    have hb : s.blocks ≠ none := by
      intro hb
      rw [cachedBlock, hb] at hc
      cases hc
    rw [if_neg hb]
    exact ⟨by simp, by simp [accesses, trace, Pure.pure]⟩

/-- The accesses of the loop: those for the first blocks, and if all these are read, those for
the others. -/
theorem accesses_readBlocks_append (sessionKey : SessionKey) (linkID : LinkID)
    (revID : RevisionID) (xs ys : List Block) (buf : Bytes) (s : Session KR) :
    accesses C w (readBlocks sessionKey linkID revID (xs ++ ys) buf) s =
      accesses C w (readBlocks sessionKey linkID revID xs buf) s ++
        match FileReads.readBlocks C w sessionKey linkID revID xs buf s with
        | ⟨.ok buf, s⟩ => accesses C w (readBlocks sessionKey linkID revID ys buf) s
        | ⟨.error _, _⟩ => [] := by
  induction xs generalizing buf s with
  | nil => rfl
  | cons b xs ih =>
    have hrun := run_readBlocks (C := C) (w := w) sessionKey linkID revID (b :: xs) buf s
    rw [readBlocks, run_bind] at hrun
    rw [List.cons_append, readBlocks, readBlocks, accesses_bind, accesses_bind]
    rcases hb : (readBlock sessionKey linkID revID b).run (exec C w) s with ⟨e | data, s₁⟩
    · rw [hb] at hrun
      rcases hr : FileReads.readBlocks C w sessionKey linkID revID (b :: xs) buf s with ⟨e | d, s₂⟩
      · simp
      · rw [hr] at hrun
        cases hrun
    · rw [hb, Outcome.andThen_ok, run_readBlocks] at hrun
      dsimp only
      rw [ih, List.append_assoc]
      congr 2
      have heq := Outcome.mapError_injective (fun _ _ => Fault.go.inj) hrun
      rw [heq]

/-- What the loop accesses is among its blocks. -/
theorem mem_accesses_readBlocks {sessionKey : SessionKey} {linkID : LinkID} {revID : RevisionID}
    {blocks : List Block} {buf : Bytes} {s : Session KR} {i : ℤ}
    (hi : i ∈ accesses C w (readBlocks sessionKey linkID revID blocks buf) s) :
    ∃ b ∈ blocks, i = b.index - 1 := by
  induction blocks generalizing buf s with
  | nil => cases hi
  | cons b blocks ih =>
    rw [readBlocks, accesses_bind] at hi
    rcases List.mem_append.mp hi with hi | hi
    · exact ⟨b, List.mem_cons_self, (accesses_readBlock sessionKey linkID revID b s).2 i hi⟩
    · split at hi
      · obtain ⟨b', hb', he⟩ := ih hi
        exact ⟨b', List.mem_cons_of_mem b hb', he⟩
      · cases hi

/-- The loop begins with its first block. -/
theorem head_mem_accesses (sessionKey : SessionKey) (linkID : LinkID) (revID : RevisionID)
    (b : Block) (blocks : List Block) (buf : Bytes) (s : Session KR) :
    b.index - 1 ∈ accesses C w (readBlocks sessionKey linkID revID (b :: blocks) buf) s := by
  obtain ⟨hne, hall⟩ := accesses_readBlock (C := C) (w := w) sessionKey linkID revID b s
  obtain ⟨i, hi⟩ := List.exists_mem_of_ne_nil _ hne
  rw [readBlocks, accesses_bind]
  exact List.mem_append_left _ (hall i hi ▸ hi)

end Traces

section Pages

variable (C : Crypto KR) (w : World)

/-- What a read has when its loop begins: the session key and the blocks of the page. -/
def revisionPage (link : Link) (parentKR : KR) (o : ℕ) (s : Session KR) :
    Option (SessionKey × List Block) :=
  link.fileProperties.bind fun props => (C.getKeyRing link parentKR).bind fun nodeKR =>
    (C.getSessionKey link nodeKR).bind fun sessionKey =>
      (w.answer s.ticks fun srv => srv.revision link.linkID props.activeRevision.id
        ((o / protonBlockSize : ℕ) + 1) revisionPageSize).map fun rev => (sessionKey, rev.blocks)

/-- Every block that the read accesses overlaps the range. -/
def OnlyOverlapping (F : Bytes) (link : Link) (parentKR : KR) (o l : ℕ) (s : Session KR) : Prop :=
  ∀ i ∈ accesses C w (readFileContent C link parentKR o l) s, ∃ j : ℕ, i = j ∧ Overlaps F o l j

/-- The range reaches the last block of the page. -/
def PageWithinRange (F : Bytes) (o l : ℕ) : Prop :=
  min (o / protonBlockSize + revisionPageSize) (chunkCount protonBlockSize F) ≤
    lastBlock F o l + 1

/-- The session when a block has been had: from the block cache, or else from the API, which has to
answer with something that can be decrypted. -/
def afterBlock (sessionKey : SessionKey) (linkID : LinkID) (revID : RevisionID) (b : Block)
    (s : Session KR) : Option (Session KR) :=
  match cachedBlock w linkID revID (b.index - 1) s with
  | (some _, s) => some s
  | (none, s) =>
    ((w.answer s.ticks fun srv => srv.block b.bareURL b.token).bind (C.decrypt sessionKey)).map
      fun plain => storeBlock w linkID revID (b.index - 1) plain s.tick

/-- One of the blocks, taken one after the other, is neither cached nor answered and decrypted. -/
def Unreadable (sessionKey : SessionKey) (linkID : LinkID) (revID : RevisionID) :
    List Block → Session KR → Prop
  | [], _ => False
  | b :: blocks, s => (afterBlock C w sessionKey linkID revID b s).elim True
    (Unreadable sessionKey linkID revID blocks)

/-- The read gets no page, or the blocks of the range on the page cannot all be read. -/
def StopsInRange (F : Bytes) (link : Link) (parentKR : KR) (revID : RevisionID) (o l : ℕ)
    (s : Session KR) : Prop :=
  ∀ sessionKey blocks, revisionPage C w link parentKR o s = some (sessionKey, blocks) →
    Unreadable C w sessionKey link.linkID revID
      (blocks.take (lastBlock F o l + 1 - o / protonBlockSize)) s.tick

variable {C w} {F : Bytes} {link : Link} {parentKR : KR} {revID : RevisionID} {s : Session KR}
  {o l : ℕ}

/-- The loop fails exactly over a block that cannot be read. -/
theorem readBlocks_error_iff (sessionKey : SessionKey) (linkID : LinkID) (blocks : List Block)
    (buf : Bytes) (s : Session KR) :
    (∃ e, (FileReads.readBlocks C w sessionKey linkID revID blocks buf s).result = .error e) ↔
      Unreadable C w sessionKey linkID revID blocks s := by
  induction blocks generalizing buf s with
  | nil => exact iff_of_false (fun ⟨e, he⟩ => by cases he) id
  | cons b blocks ih =>
    rw [Unreadable, afterBlock]
    simp only [FileReads.readBlocks]
    rcases cachedBlock w linkID revID (b.index - 1) s with ⟨_ | cached, s₁⟩
    · dsimp only
      have hcall := Session.callAPI_answer w s₁ fun srv => srv.block b.bareURL b.token
      rcases hc : s₁.callAPI w fun srv => srv.block b.bareURL b.token with ⟨e | enc, s₂⟩
      · rw [hc] at hcall
        obtain ⟨hnone, rfl⟩ := hcall
        rw [hnone]
        exact iff_of_true ⟨_, rfl⟩ trivial
      · rw [hc] at hcall
        obtain ⟨hsome, rfl⟩ := hcall
        rw [hsome, Option.bind_some]
        simp only [Outcome.recover_ok, Outcome.andThen_ok]
        cases C.decrypt sessionKey enc with
        | none => exact iff_of_true ⟨_, rfl⟩ trivial
        | some plain => exact ih (buf ++ plain) _
    · exact ih (buf ++ cached) s₁

/-- Online, a read accesses what its loop over the page accesses. -/
theorem accesses_readFileContent
    (hrev : link.fileProperties.map (·.activeRevision.id) = some revID)
    (hnet : w.fails s.ticks ≠ some .net) :
    accesses C w (readFileContent C link parentKR o l) s =
      match revisionPage C w link parentKR o s with
      | none => []
      | some (sessionKey, blocks) =>
        accesses C w (readBlocks sessionKey link.linkID revID blocks []) s.tick := by
  obtain ⟨props, hprops, rfl⟩ := Option.map_eq_some_iff.mp hrev
  have hdiv := natCast_tdiv_blockSize o
  rw [readFileContent, revisionPage, hprops]
  cases C.getKeyRing link parentKR with
  | none => rfl
  | some nodeKR =>
    simp only [Option.bind_some]
    cases C.getSessionKey link nodeKR with
    | none => rfl
    | some sessionKey =>
      simp only [Option.bind_some]
      rw [accesses_ask, exec, hdiv]
      rcases Session.callAPI_cases w s fun srv => srv.revision link.linkID props.activeRevision.id
        ((o / protonBlockSize : ℕ) + 1) revisionPageSize with ⟨rev, hf, hr, hc⟩ | ⟨e, hn, hc⟩
      · rw [hc, World.answer, if_pos hf, hr]
        dsimp only [Option.map_some]
        rw [accesses_bind, run_readBlocks]
        rcases FileReads.readBlocks C w sessionKey link.linkID props.activeRevision.id rev.blocks []
          s.tick with ⟨e | buf, s₁⟩ <;> exact List.append_nil _
      · have hnone : w.answer s.ticks (fun srv => srv.revision link.linkID props.activeRevision.id
            ((o / protonBlockSize : ℕ) + 1) revisionPageSize) = none := by
          rw [World.answer]
          split_ifs with hf
          · exact hn hf
          · rfl
        have hoff : isOfflineError (.api e) = false := by
          cases e with
          | net => exact absurd (Session.callAPI_net (by rw [hc])) hnet
          | rejected code => rfl
          | notExist => rfl
        rw [hc, hnone]
        simp only [hoff, Option.map_none]
        rfl

/-- The indices of a page that the server serves, for a read that begins inside the file. -/
theorem revisionPage_index (hsrv : ServesFile C w link parentKR revID F)
    (hrev : link.fileProperties.map (·.activeRevision.id) = some revID) {sessionKey : SessionKey}
    {blocks : List Block} (hp : revisionPage C w link parentKR o s = some (sessionKey, blocks)) :
    blocks.map Block.index = (List.range' (o / protonBlockSize)
      (min revisionPageSize (chunkCount protonBlockSize F - o / protonBlockSize))).map
        fun i : ℕ => (i : ℤ) + 1 := by
  obtain ⟨props, hprops, rfl⟩ := Option.map_eq_some_iff.mp hrev
  simp only [revisionPage, hprops, Option.bind_some, Option.bind_eq_some_iff,
    Option.map_eq_some_iff, Prod.mk.injEq] at hp
  obtain ⟨nodeKR, -, key, -, rev, hr, -, rfl⟩ := hp
  rw [World.answer] at hr
  split_ifs at hr
  exact hsrv.page _ _ _ rev hr

/-- Block `j` of the page, by its place. -/
theorem page_block {k m : ℕ} {blocks : List Block}
    (hidx : blocks.map Block.index = (List.range' k m).map fun i : ℕ => (i : ℤ) + 1) {b : Block}
    (hb : b ∈ blocks) : ∃ j : ℕ, b.index - 1 = j ∧ k ≤ j ∧ j < k + m := by
  have hmem := List.mem_map_of_mem (f := Block.index) hb
  rw [hidx] at hmem
  obtain ⟨j, hj, he⟩ := List.mem_map.mp hmem
  have hrange := List.mem_range'_1.mp hj
  exact ⟨j, by omega, hrange.1, hrange.2⟩

theorem page_take {k m : ℕ} {blocks : List Block}
    (hidx : blocks.map Block.index = (List.range' k m).map fun i : ℕ => (i : ℤ) + 1) (n : ℕ) :
    (blocks.take n).map Block.index =
      (List.range' k (min n m)).map fun i : ℕ => (i : ℤ) + 1 := by
  rw [List.map_take, hidx, ← List.map_take]
  rcases Nat.le_total m n with hmn | hmn
  · rw [List.take_range'_of_length_le hmn, Nat.min_eq_right hmn]
  · rw [List.take_range'_of_length_ge hmn, Nat.min_eq_left hmn]

theorem page_drop {k m : ℕ} {blocks : List Block}
    (hidx : blocks.map Block.index = (List.range' k m).map fun i : ℕ => (i : ℤ) + 1) (n : ℕ) :
    (blocks.drop n).map Block.index =
      (List.range' (k + n) (m - n)).map fun i : ℕ => (i : ℤ) + 1 := by
  rw [List.map_drop, hidx, ← List.map_drop, List.drop_range', Nat.mul_one]

/-- The loop over a page of consecutive blocks stays within the range if and only if the page
does, or one of the blocks of the range cannot be read. -/
theorem readBlocks_overlapping_iff {sessionKey : SessionKey} {linkID : LinkID}
    {blocks : List Block} {m : ℕ} (hlt : o < rangeEnd F o l)
    (hidx : blocks.map Block.index =
      (List.range' (o / protonBlockSize) m).map fun i : ℕ => (i : ℤ) + 1) :
    (∀ i ∈ accesses C w (readBlocks sessionKey linkID revID blocks []) s,
      ∃ j : ℕ, i = j ∧ Overlaps F o l j) ↔
    o / protonBlockSize + m ≤ lastBlock F o l + 1 ∨ Unreadable C w sessionKey linkID revID
      (blocks.take (lastBlock F o l + 1 - o / protonBlockSize)) s := by
  rw [← readBlocks_error_iff sessionKey linkID _ []]
  set k := o / protonBlockSize with hk
  set n := lastBlock F o l + 1 - k with hn
  have hlast : k ≤ lastBlock F o l := by
    rw [hk, lastBlock]
    exact Nat.div_le_div_right (by omega)
  -- the blocks of the range come first
  have hfirst : ∀ i ∈ accesses C w (readBlocks sessionKey linkID revID (blocks.take n) []) s,
      ∃ j : ℕ, i = j ∧ Overlaps F o l j := by
    intro i hi
    obtain ⟨b, hb, rfl⟩ := mem_accesses_readBlocks hi
    obtain ⟨j, he, hlow, hhigh⟩ := page_block (page_take hidx n) hb
    exact ⟨j, he, overlaps_iff.mpr ⟨hlt, hlow, by omega⟩⟩
  have hsplit := accesses_readBlocks_append (C := C) (w := w) sessionKey linkID revID
    (blocks.take n) (blocks.drop n) [] s
  rw [List.take_append_drop] at hsplit
  rw [hsplit]
  rcases hrun : FileReads.readBlocks C w sessionKey linkID revID (blocks.take n) [] s with
    ⟨e | buf, s₁⟩
  · refine iff_of_true ?_ (.inr ⟨e, rfl⟩)
    rw [List.append_nil]
    exact hfirst
  · have hdrop := page_drop hidx n
    dsimp only
    cases hrest : blocks.drop n with
    | nil =>
      rw [hrest] at hdrop
      have hlen := congrArg List.length hdrop
      simp only [List.map_nil, List.length_nil, List.length_map, List.length_range'] at hlen
      refine iff_of_true ?_ (.inl (by omega))
      exact fun i hi => hfirst i ((List.mem_append.mp hi).resolve_right (List.not_mem_nil))
    | cons b rest =>
      rw [hrest] at hdrop
      have hm : 0 < m - n := by
        by_contra hzero
        rw [Nat.eq_zero_of_not_pos hzero] at hdrop
        cases hdrop
      refine iff_of_false (fun hall => ?_) ?_
      · obtain ⟨j, hj, ho⟩ := hall (b.index - 1)
          (List.mem_append_right _ (head_mem_accesses sessionKey linkID revID b rest buf s₁))
        obtain ⟨j', hj', hlow, -⟩ := page_block hdrop List.mem_cons_self
        have hhigh := (overlaps_iff.mp ho).2.2
        omega
      · rintro (hpage | ⟨e, he⟩)
        · omega
        · cases he

/-- An online read that begins inside the file accesses only blocks that overlap its range,
exactly when the range reaches the end of the page, or the blocks of the range cannot all be
read. -/
theorem accessed_blocks_iff (hsrv : ServesFile C w link parentKR revID F)
    (hrev : link.fileProperties.map (·.activeRevision.id) = some revID)
    (hnet : w.fails s.ticks ≠ some .net) (ho : o < F.length) :
    OnlyOverlapping C w F link parentKR o l s ↔
      PageWithinRange F o l ∨ StopsInRange C w F link parentKR revID o l s := by
  rw [OnlyOverlapping, accesses_readFileContent hrev hnet, StopsInRange]
  cases hp : revisionPage C w link parentKR o s with
  | none => exact iff_of_true (fun i hi => by cases hi) (.inr nofun)
  | some page =>
    obtain ⟨sessionKey, blocks⟩ := page
    have hcount : F.length ≤ chunkCount protonBlockSize F * protonBlockSize :=
      length_le_chunkCount (by decide)
    have hinside : o / protonBlockSize < chunkCount protonBlockSize F :=
      (Nat.div_lt_iff_lt_mul (by decide)).mpr (ho.trans_le hcount)
    have hpage : PageWithinRange F o l ↔ o / protonBlockSize +
        min revisionPageSize (chunkCount protonBlockSize F - o / protonBlockSize) ≤
          lastBlock F o l + 1 := by
      rw [PageWithinRange]
      omega
    dsimp only
    rw [readBlocks_overlapping_iff (lt_rangeEnd ho) (revisionPage_index hsrv hrev hp), hpage]
    simp

/-- The second byte of three. -/
theorem accessed_blocks_short :
    OnlyOverlapping Crypto.plain (World.steady (fileServer [1, 2, 3])) [1, 2, 3]
      (plainFile "F" "root" "f" 3 "rev1") () 1 1 (newSession "root" none) :=
  (accessed_blocks_iff (fileServer_servesFile _ "rev1" [1, 2, 3]) rfl nofun (by decide)).mpr
    (.inl (by unfold PageWithinRange; decide))

/-- A file of one block and one byte. -/
def twoBlocks : Bytes := List.replicate (protonBlockSize + 1) 0

/-- Its first byte is read: the second block is accessed as well. -/
theorem accessed_blocks_fails :
    ¬ OnlyOverlapping Crypto.plain (World.steady (fileServer twoBlocks)) twoBlocks
      (plainFile "F" "root" "f" twoBlocks.length "rev1") () 0 1 (newSession "root" none) := by
  have hlen : twoBlocks.length = protonBlockSize + 1 := List.length_replicate
  have hend : rangeEnd twoBlocks 0 1 = 1 := by
    rw [rangeEnd, hlen]
    decide
  have hcount : chunkCount protonBlockSize twoBlocks = 2 := by
    rw [chunkCount, hlen]
    decide
  obtain ⟨page, hp⟩ : ∃ page, revisionPage Crypto.plain (World.steady (fileServer twoBlocks))
      (plainFile "F" "root" "f" twoBlocks.length "rev1") () 0 (newSession "root" none) =
        some page := ⟨_, rfl⟩
  obtain ⟨sessionKey, blocks⟩ := page
  have hrev : (plainFile "F" "root" "f" twoBlocks.length "rev1").fileProperties.map
      (·.activeRevision.id) = some "rev1" := rfl
  rw [OnlyOverlapping, accesses_readFileContent hrev (by decide), hp]
  dsimp only
  rw [readBlocks_overlapping_iff (by rw [hend]; decide)
    (revisionPage_index (fileServer_servesFile _ "rev1" twoBlocks) hrev hp), hcount, lastBlock,
    hend]
  rintro (hpage | hstops)
  · exact absurd hpage (by decide)
  · obtain ⟨e, he⟩ := (readBlocks_error_iff _ _ _ [] _).mpr hstops
    obtain ⟨data, s', hread⟩ := readBlocks_succeeds twoBlocks sessionKey "F" "rev1"
      (blocks.take 1) [] (s := (newSession "root" none : Session Unit).tick) rfl
    cases he.symm.trans (congrArg Outcome.result hread)

end Pages

end ProtonDrive.BlockAccesses
