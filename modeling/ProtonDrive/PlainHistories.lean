import ProtonDrive.LastWords

/-!
# Creations and deletions

In a history that creates links in a directory under names that are free at the time, and deletes
links of the directory, every event says what the directory has just become. A session that has
the directory and its links on record meets the condition of an exact replay then, also where a
name is used again.
-/

namespace ProtonDrive.PlainHistories
open SlashPaths KeyedMaps FallibleSteps DriveApi DriveSession EventPoller ChangeNotices
  EventReplay LastWords PathMaps PartialRuns

variable {KR : Type}

/-- The active links of the directory. -/
def members (id : LinkID) (links : List Link) : List Link :=
  links.filter fun l => l.parentLinkID = id ∧ l.state = .active

/-- A new link of the directory with a free name, or the deletion of one of its links. -/
def PlainChange (C : Crypto KR) (kr : KR) (id : LinkID) (links : List Link) : Change → Prop
  | .create l => l.parentLinkID = id ∧ l.state = .active ∧ (∀ y ∈ links, y.linkID ≠ l.linkID) ∧
      ∃ m, IsComponent m ∧ C.getName l kr = some m ∧ ¬Named C kr (members id links) m
  | .delete x => x ≠ id ∧ ∃ y ∈ members id links, y.linkID = x
  | _ => False

def Plain (C : Crypto KR) (kr : KR) (id : LinkID) : List Link → List Change → Prop
  | _, [] => True
  | links, c :: cs => PlainChange C kr id links c ∧ Plain C kr id (c.apply links) cs

/-- The directory is a folder on record, and its links are on record under names of their own. -/
structure OnRecord (C : Crypto KR) (kr : KR) (d : Path) (id : LinkID) (links : List Link)
    (s : Session KR) : Prop where
  folder : ∃ f, links.find? (·.linkID = id) = some f ∧ f.type = .folder
  path : s.linkPath id = d
  keyring : s.nodeKRs.lookup id = some kr
  blocks : s.blocks.isSome
  named : ∀ y ∈ members id links,
    ∃ m, IsComponent m ∧ C.getName y kr = some m ∧ s.linkPath y.linkID = child d m
  distinct : ∀ y ∈ members id links, ∀ y' ∈ members id links,
    C.getName y kr = C.getName y' kr → y.linkID = y'.linkID

section Servers

variable {C : Crypto KR} {kr : KR} {id x : LinkID} {links : List Link} {l : Link} {n : Path}

theorem activeNames_members (hf : ∃ f, links.find? (·.linkID = id) = some f ∧ f.type = .folder) :
    activeNames C kr (serverOf links) id n = true ↔ Named C kr (members id links) n := by
  obtain ⟨f, hfind, hfolder⟩ := hf
  have hchildren : (serverOf links).children id = some (members id links) := by
    simp [serverOf, hfind, hfolder, members, Option.filter]
  rw [activeNames_iff, hchildren, Option.getD_some]

theorem members_append (hp : l.parentLinkID = id) (ha : l.state = .active) :
    members id (links ++ [l]) = members id links ++ [l] := by
  simp [members, hp, ha]

theorem mem_members_filter {y : Link} :
    y ∈ members id (links.filter fun l => l.linkID ≠ x) ↔ y ∈ members id links ∧ y.linkID ≠ x := by
  simp only [members, List.mem_filter, decide_eq_true_eq]
  tauto

theorem find_filter (hx : x ≠ id) :
    (links.filter fun l => l.linkID ≠ x).find? (·.linkID = id) =
      links.find? (·.linkID = id) := by
  rw [List.find?_filter]
  congr 1
  funext y
  by_cases hy : y.linkID = id
  · simp [hy, Ne.symm hx]
  · simp [hy]

end Servers

section Steps

variable {C : Crypto KR} {kr : KR} {w : World} {srv : Server} {d : Path} {id : LinkID}
  {links : List Link} {s : Session KR}

/-- An event that says one thing and has nothing compared or read. -/
structure SaysOnly (C : Crypto KR) (srv : Server) (d : Path) (s : Session KR) (le : LinkEvent)
    (m : Path) (b : Bool) : Prop where
  decisive : decisive C srv s le = none
  refreshes : ¬Refreshes C srv d s le
  word : Says C srv d s le m b
  only : ∀ n b', Says C srv d s le n b' → n = m ∧ b' = b

theorem linkPath_setLinkPath (s : Session KR) (i j : LinkID) (p : Path) :
    (s.setLinkPath i p).linkPath j = if j = i then p else s.linkPath j := by
  simp only [Session.linkPath, Session.setLinkPath]
  split_ifs with h
  · rw [h, AList.lookup_insert, Option.getD_some]
  · rw [AList.lookup_insert_ne h]

theorem createdAs_plain {l : Link} {m : Path} (hd : d ≠ []) (hp : s.linkPath l.parentLinkID = d)
    (hkr : s.nodeKRs.lookup l.parentLinkID = some kr) (hm : IsComponent m)
    (hname : C.getName l kr = some m) : createdAs C srv s l = some m := by
  simp [createdAs, hp, hd, hkr, hname, hm.nonempty]

theorem created_saysOnly {l : Link} {m : Path} (hp : s.linkPath l.parentLinkID = d)
    (hm : createdAs C srv s l = some m) : SaysOnly C srv d s ⟨.create, l⟩ m true := by
  have hdec : decisive C srv s ⟨.create, l⟩ = none := by simp [decisive, hm]
  refine ⟨hdec, ?_, .created rfl hp hm, fun n b' h => says_created rfl hm h⟩
  rintro (⟨hr, -⟩ | ⟨hc, -⟩ | ⟨-, -, hnone, -⟩ | ⟨hc, -⟩)
  · cases hdec.symm.trans hr
  · exact hc rfl
  · cases hm.symm.trans hnone
  · exact hc rfl

theorem deleted_saysOnly {l : Link} {m : Path} (hd : IsAbsolute d) (hm : IsComponent m)
    (hp : s.linkPath l.linkID = child d m) : SaysOnly C srv d s ⟨.delete, l⟩ m false := by
  refine ⟨rfl, ?_, .deleted rfl hp, fun n b' h => says_deleted rfl hp h⟩
  rintro (⟨hr, -⟩ | ⟨-, -, hnil, -⟩ | ⟨hc, -⟩ | ⟨-, hdel, -⟩)
  · cases hr
  · exact (hd.child hm).ne_nil (hp.symm.trans hnil)
  · cases hc
  · exact hdel rfl

theorem linkPath_invalidateCreated (w : World) (l : Link) (s : Session KR) (j : LinkID) :
    (invalidateCreated w l s).linkPath j = s.linkPath j := by
  simp only [invalidateCreated]
  split_ifs <;> rfl

theorem afterEvent_create {l : Link} {m : Path} (hb : s.blocks.isSome) (hd : d ≠ [])
    (hp : s.linkPath l.parentLinkID = d) (hkr : s.nodeKRs.lookup l.parentLinkID = some kr)
    (hm : IsComponent m) (hname : C.getName l kr = some m) :
    ∃ s', afterEvent C w s ⟨.create, l⟩ = some s' ∧
      (∀ j, s'.linkPath j = if j = l.linkID then child d m else s.linkPath j) ∧
      s'.nodeKRs = s.nodeKRs ∧ s'.blocks.isSome := by
  have hkr' : (invalidateCreated w l s).nodeKRs.lookup l.parentLinkID = some kr := by
    rw [nodeKRs_invalidateCreated, hkr]
  have hhandle : handle C w ⟨.create, l⟩ s = some (handled [⟨.created, l.linkID, child d m⟩]
      ((invalidateCreated w l s).setLinkPath l.linkID (child d m))) := by
    simp [handle, handleCreate, announceCreate, announceCreated, createdName, hp, hd, hkr', hname,
      hm.nonempty, handled]
  obtain ⟨o, ho, hblocks⟩ := handle_isSome (C := C) hb w ⟨.create, l⟩
  cases hhandle.symm.trans ho
  refine ⟨_, by rw [afterEvent, hhandle, Option.map_some], fun j => ?_, handle_nodeKRs hhandle,
    hblocks⟩
  change (Session.setLinkPath ..).linkPath j = _
  rw [linkPath_setLinkPath, linkPath_invalidateCreated]

theorem afterEvent_delete (hb : s.blocks.isSome) (l : Link) :
    ∃ s', afterEvent C w s ⟨.delete, l⟩ = some s' ∧ (∀ j, s'.linkPath j = s.linkPath j) ∧
      s'.nodeKRs = s.nodeKRs ∧ s'.blocks.isSome := by
  obtain ⟨o, ho, hblocks⟩ := handle_isSome (C := C) hb w ⟨.delete, l⟩
  refine ⟨o.state, by rw [afterEvent, ho, Option.map_some], ?_, handle_nodeKRs ho, hblocks⟩
  rcases handle_cases ho with ⟨hc, -⟩ | ⟨-, s₁, hs₁, rfl⟩ | ⟨⟨-, hdel⟩, -⟩
  · cases hc
  · obtain ⟨bc, -, rfl⟩ := dropBlocks_eq_some hs₁
    rw [announceDelete_kept]
    intro j
    change (invalidateDeleted w l s).linkPath j = _
    simp only [invalidateDeleted]
    split_ifs <;> rfl
  · exact absurd rfl hdel

theorem OnRecord.created {l : Link} {m : Path} {s' : Session KR}
    (hr : OnRecord C kr d id links s) (hparent : l.parentLinkID = id) (hactive : l.state = .active)
    (hfresh : ∀ y ∈ links, y.linkID ≠ l.linkID) (hm : IsComponent m)
    (hname : C.getName l kr = some m) (hfree : ¬Named C kr (members id links) m)
    (hpaths : ∀ j, s'.linkPath j = if j = l.linkID then child d m else s.linkPath j)
    (hkrs : s'.nodeKRs = s.nodeKRs) (hb : s'.blocks.isSome) :
    OnRecord C kr d id (links ++ [l]) s' := by
  obtain ⟨f, hfind, hfolder⟩ := hr.folder
  have hid : id ≠ l.linkID := by
    have hf := hfresh f (List.mem_of_find?_eq_some hfind)
    have hfid : f.linkID = id := by simpa using List.find?_some hfind
    rwa [hfid] at hf
  have hold : ∀ y ∈ members id links, s'.linkPath y.linkID = s.linkPath y.linkID :=
    fun y hy => (hpaths _).trans (if_neg (hfresh y (List.mem_of_mem_filter hy)))
  have hno : ∀ y ∈ members id links, C.getName y kr ≠ C.getName l kr :=
    fun y hy h => hfree ⟨y, hy, h.trans hname⟩
  refine ⟨⟨f, by simp [List.find?_append, hfind], hfolder⟩,
    ((hpaths id).trans (if_neg hid)).trans hr.path, by rw [hkrs, hr.keyring], hb, ?_, ?_⟩
  · rw [members_append hparent hactive]
    intro y hy
    rcases List.mem_append.mp hy with hy | hy
    · rw [hold y hy]
      exact hr.named y hy
    · rw [List.mem_singleton.mp hy]
      exact ⟨m, hm, hname, (hpaths _).trans (if_pos rfl)⟩
  · rw [members_append hparent hactive]
    intro y hy y' hy' h
    rcases List.mem_append.mp hy with hy | hy <;> rcases List.mem_append.mp hy' with hy' | hy'
    · exact hr.distinct y hy y' hy' h
    · rw [List.mem_singleton.mp hy'] at h
      exact absurd h (hno y hy)
    · rw [List.mem_singleton.mp hy] at h
      exact absurd h.symm (hno y' hy')
    · rw [List.mem_singleton.mp hy, List.mem_singleton.mp hy']

theorem OnRecord.deleted {x : LinkID} {s' : Session KR} (hr : OnRecord C kr d id links s)
    (hx : x ≠ id) (hpaths : ∀ j, s'.linkPath j = s.linkPath j) (hkrs : s'.nodeKRs = s.nodeKRs)
    (hb : s'.blocks.isSome) : OnRecord C kr d id (links.filter fun l => l.linkID ≠ x) s' := by
  refine ⟨?_, (hpaths id).trans hr.path, by rw [hkrs, hr.keyring], hb, fun y hy => ?_,
    fun y hy y' hy' h => ?_⟩
  · rw [find_filter hx]
    exact hr.folder
  · rw [hpaths]
    exact hr.named y (mem_members_filter.mp hy).1
  · exact hr.distinct y (mem_members_filter.mp hy).1 y' (mem_members_filter.mp hy').1 h

/-- The names of the directory after a creation. -/
theorem named_created {l : Link} {m n : Path} (hparent : l.parentLinkID = id)
    (hactive : l.state = .active) (hname : C.getName l kr = some m) :
    Named C kr (members id (links ++ [l])) n ↔ n = m ∨ Named C kr (members id links) n := by
  rw [members_append hparent hactive]
  simp only [Named, List.mem_append, List.mem_singleton, or_and_right, exists_or, exists_eq_left,
    hname, Option.some.injEq]
  rw [or_comm, eq_comm]

/-- The names of the directory after a deletion. -/
theorem named_deleted {y : Link} {m n : Path} (hr : OnRecord C kr d id links s)
    (hy : y ∈ members id links) (hname : C.getName y kr = some m)
    (hpath : s.linkPath y.linkID = child d m) :
    Named C kr (members id (links.filter fun l => l.linkID ≠ y.linkID)) n ↔
      n ≠ m ∧ Named C kr (members id links) n := by
  constructor
  · rintro ⟨z, hz, hzn⟩
    obtain ⟨hz, hne⟩ := mem_members_filter.mp hz
    refine ⟨?_, z, hz, hzn⟩
    rintro rfl
    exact hne (hr.distinct z hz y hy (hzn.trans hname.symm))
  · rintro ⟨hne, z, hz, hzn⟩
    refine ⟨z, mem_members_filter.mpr ⟨hz, fun hid => hne ?_⟩, hzn⟩
    obtain ⟨k, -, hk, hzpath⟩ := hr.named z hz
    cases hk.symm.trans hzn
    rw [hid, hpath] at hzpath
    exact (child_injective hzpath).symm

/-- Every change of a plain history is logged with an event that says what becomes of one name,
and nothing else. -/
theorem plain_event (w : World) (srv : Server) (hd : IsAbsolute d) (remains : Remains) {c : Change}
    (hc : PlainChange C kr id links c) (hr : OnRecord C kr d id links s) :
    ∃ le s' m b, c.event remains links = some le ∧ afterEvent C w s le = some s' ∧
      OnRecord C kr d id (c.apply links) s' ∧ SaysOnly C srv d s le m b ∧
      ∀ n, Named C kr (members id (c.apply links)) n ↔
        (n = m ∧ b = true) ∨ (n ≠ m ∧ Named C kr (members id links) n) := by
  cases c with
  | create l =>
    obtain ⟨hparent, hactive, hfresh, m, hm, hname, hfree⟩ := hc
    have hp : s.linkPath l.parentLinkID = d := by rw [hparent, hr.path]
    have hkr : s.nodeKRs.lookup l.parentLinkID = some kr := by rw [hparent, hr.keyring]
    obtain ⟨s', hs', hpaths, hkrs, hb⟩ :=
      afterEvent_create (w := w) hr.blocks hd.ne_nil hp hkr hm hname
    have hevent : (Change.create l).event remains links = some ⟨.create, l⟩ := by
      have hnone : links.find? (fun y => decide (y.linkID = l.linkID)) = none :=
        List.find?_eq_none.mpr fun y hy => by simpa using hfresh y hy
      have hfind : (links ++ [l]).find? (fun y => decide (y.linkID = l.linkID)) = some l := by
        rw [List.find?_append, hnone]
        simp
      exact congrArg (Option.map fun z => (⟨.create, z⟩ : LinkEvent)) hfind
    refine ⟨⟨.create, l⟩, s', m, true, hevent, hs',
      hr.created hparent hactive hfresh hm hname hfree hpaths hkrs hb,
      created_saysOnly hp (createdAs_plain hd.ne_nil hp hkr hm hname), fun n => ?_⟩
    simp only [Change.apply]
    rw [named_created hparent hactive hname]
    tauto
  | delete x =>
    obtain ⟨hne, y, hy, rfl⟩ := hc
    obtain ⟨m, hm, hname, hpath⟩ := hr.named y hy
    have hremains : (remains.link y.linkID).linkID = y.linkID := remains.linkID _
    obtain ⟨s', hs', hpaths, hkrs, hb⟩ :=
      afterEvent_delete (C := C) (w := w) hr.blocks (remains.link y.linkID)
    refine ⟨⟨.delete, remains.link y.linkID⟩, s', m, false, rfl, hs',
      hr.deleted hne hpaths hkrs hb, deleted_saysOnly hd hm (by rw [hremains, hpath]), fun n => ?_⟩
    simp only [Change.apply]
    rw [named_deleted hr hy hname hpath]
    simp
  | rename _ _ | move _ _ _ | trash _ | restore _ => exact hc.elim

end Steps

section Runs

variable {C : Crypto KR} {kr : KR} {w : World} {srv : Server} {d : Path} {id : LinkID}
  {links : List Link} {s : Session KR}

/-- Along a plain history the events keep to what the directory has just become, and nothing is
compared. -/
theorem play_plain (hd : IsAbsolute d) (remains : Remains) {history : List Change}
    (hplain : Plain C kr id links history) (hr : OnRecord C kr d id links s) {final : Path → Bool}
    (hfinal : ∀ n, final n = true ↔ Named C kr (members id (play remains links history).1) n) :
    Along (afterEvent C w) (fun s le => ComparesOwn C srv d s le id) s
        (play remains links history).2 ∧
      ∀ n, IsComponent n →
        Followed (afterEvent C w) (fun s le => Misleads C srv final d s le n)
          (fun s le => Corrects C srv final d s le n) s (play remains links history).2 ∧
        ((Named C kr (members id links) n ↔ final n = true) ∨ Sometime (afterEvent C w)
          (fun s le => Corrects C srv final d s le n) s (play remains links history).2) := by
  induction history generalizing links s with
  | nil => exact ⟨trivial, fun n _ => ⟨trivial, .inl (hfinal n).symm⟩⟩
  | cons c history ih =>
    obtain ⟨hc, hplain⟩ := hplain
    obtain ⟨le, s', m, b, hevent, hs', hr', hsaid, hnames⟩ := plain_event w srv hd remains hc hr
    obtain ⟨halong, hrest⟩ := ih hplain hr' hfinal
    have hlog : (play remains links (c :: history)).2 =
        le :: (play remains (c.apply links) history).2 := by
      simp [play, hevent]
    rw [hlog]
    refine ⟨.cons (fun r hdec => ?_) hs' halong, fun n hn => ?_⟩
    · cases hsaid.decisive.symm.trans hdec
    refine (followed_cons hs' (fun hcorrects => ?_) (fun hmisleads => ?_) fun hno hno' => ?_).mpr
      (hrest n hn)
    · obtain ⟨rfl, hb⟩ := hsaid.only n _ (hcorrects.resolve_left hsaid.refreshes)
      rw [hnames, hb]
      simp
    · obtain ⟨rfl, hb⟩ := hsaid.only n _ hmisleads
      refine ⟨fun hcorrects => ?_, ?_⟩
      · have hb' := (hsaid.only n _ (hcorrects.resolve_left hsaid.refreshes)).2
        exact absurd (hb'.trans hb.symm) (by simp)
      · rw [hnames, ← hb]
        simp
    · have hother : n ≠ m := by
        rintro rfl
        rcases Bool.eq_or_eq_not b (final n) with rfl | rfl
        · exact hno (.inr hsaid.word)
        · exact hno' hsaid.word
      rw [hnames]
      simp [hother]

/-- The directory stays a folder throughout a plain history. -/
theorem play_folder (remains : Remains) {history : List Change}
    (hplain : Plain C kr id links history)
    (hf : ∃ f, links.find? (·.linkID = id) = some f ∧ f.type = .folder) :
    ∃ f, (play remains links history).1.find? (·.linkID = id) = some f ∧ f.type = .folder := by
  induction history generalizing links with
  | nil => exact hf
  | cons c history ih =>
    obtain ⟨hc, hplain⟩ := hplain
    refine ih hplain ?_
    cases c with
    | create l =>
      obtain ⟨f, hfind, hfolder⟩ := hf
      exact ⟨f, by simp [Change.apply, List.find?_append, hfind], hfolder⟩
    | delete x =>
      simp only [Change.apply, find_filter hc.1]
      exact hf
    | rename _ _ | move _ _ _ | trash _ | restore _ => exact hc.elim

/-- The notifications of a plain history leave exactly the final names. -/
theorem plain_replay_exact (hC : C.NamesAreComponents) {remains : Remains} {history : List Change}
    (hsrv : w.Serves (serverAfter remains links history)) (hw : w.Reliable)
    (hs : PathsAbsolute s) (hne : d ≠ []) (hplain : Plain C kr id links history)
    (hr : OnRecord C kr d id links s) {shown : Path → Bool} (hshown : Shows C kr d s shown)
    (hnow : ∀ n, IsComponent n → (Named C kr (members id links) n ↔ shown n = true)) :
    ∃ xs s', handleEvents C w (logOf remains links history) s = some (xs, s') ∧
      (xs.length ≤ eventBufferSize →
        Exact (activeNames C kr (serverAfter remains links history) id)
          ((xs.foldl enqueue []).foldl
            (clientStep (activeNames C kr (serverAfter remains links history) id) d) shown)) := by
  have hd : IsAbsolute d := hr.path ▸ linkPath_absolute hs (hr.path.symm ▸ hne)
  have hfinal : ∀ n, activeNames C kr (serverAfter remains links history) id n = true ↔
      Named C kr (members id (play remains links history).1) n :=
    fun n => activeNames_members (play_folder remains hplain hr.folder)
  obtain ⟨hown, hwords⟩ := play_plain (w := w) hd remains hplain hr hfinal
  obtain ⟨xs, s', hxs, hend⟩ :=
    handleEvents_name hsrv hw hC hd hr.blocks hs hr.keyring hown fun n hn => hshown.inStep hn
  refine ⟨xs, s', hxs, fun hq n hn => ?_⟩
  rw [enqueue_all (by simpa using hq), List.nil_append]
  refine (hend n hn).mpr ((hwords n hn).imp_right (Or.imp_left fun h => ?_))
  exact Bool.eq_iff_iff.mpr ((hnow n hn).symm.trans h)

end Runs

end ProtonDrive.PlainHistories
