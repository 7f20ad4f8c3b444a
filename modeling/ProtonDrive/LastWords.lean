import ProtonDrive.EventReplay
import ProtonDrive.FreshListings
import ProtonDrive.PathMaps
import ProtonDrive.PartialRuns

/-!
# The last words of a history

A client that replays the notifications of a history ends with the final names of a directory
exactly when no event has a false last word: an event that says of a name, on the record, what is
not so in the end comes before one that says what is so, or has the client compare or read the
directory again. A client that shows no final names at first needs such an event as well.
-/

namespace ProtonDrive.LastWords
open SlashPaths KeyedMaps FallibleSteps DriveApi DriveSession EventPoller ChangeNotices
  FreshListings EventReplay PathMaps PartialRuns

section Steps

variable {KR : Type} (C : Crypto KR) (srv : Server) (final : Path → Bool) (d : Path)
  (s : Session KR) (le : LinkEvent)

/-- The comparison an event is decided by, if it is decided by one. -/
def decisive : Option (Comparison KR × List Link) :=
  match le.eventType with
  | .delete => none
  | .create =>
    if (createdAs C srv s le.link).isSome then none
    else compared srv s (s.linkPath le.link.parentLinkID) le.link.parentLinkID
  | .update | .updateMetadata =>
    (compared srv s (s.linkPath le.link.linkID) le.link.linkID).or
      (compared srv s (s.linkPath le.link.parentLinkID) le.link.parentLinkID)

/-- What an event says of a name of `d` on the record, without a comparison: the link recorded
there is deleted, a link with this name is created, or the link recorded there is in the trash. -/
inductive Says : Path → Bool → Prop
  | deleted {n : Path} : le.eventType = .delete → s.linkPath le.link.linkID = child d n →
      Says n false
  | created {n : Path} : le.eventType = .create → s.linkPath le.link.parentLinkID = d →
      createdAs C srv s le.link = some n → Says n true
  | trashed {n : Path} : le.eventType ≠ .create → le.eventType ≠ .delete →
      decisive C srv s le = none → inTrash srv le.link.linkID →
      s.linkPath le.link.linkID = child d n → Says n false

/-- The event makes the client compare or read `d` again: the listing of `d` is compared, or
`d` is all that is known of the place of the link, or `d` itself has changed. -/
inductive Refreshes : Prop
  | compared {r : Comparison KR × List Link} : decisive C srv s le = some r →
      r.1.dirPath = d → Refreshes
  | unplaced : le.eventType ≠ .create → decisive C srv s le = none →
      s.linkPath le.link.linkID = [] → s.linkPath le.link.parentLinkID = d → Refreshes
  | unnamed : le.eventType = .create → decisive C srv s le = none →
      createdAs C srv s le.link = none → s.linkPath le.link.parentLinkID = d → Refreshes
  | itself : le.eventType ≠ .create → le.eventType ≠ .delete → decisive C srv s le = none →
      inTrash srv le.link.linkID = false → s.linkPath le.link.linkID = d → Refreshes

/-- The event says of a name what is not so in the end. -/
def Misleads (n : Path) : Prop := Says C srv d s le n (!final n)

/-- The event says of a name what is so in the end, or makes the client compare or read `d`
again. -/
def Corrects (n : Path) : Prop := Refreshes C srv d s le ∨ Says C srv d s le n (final n)

/-- A listing compared at `d` is that of the directory `id`. -/
def ComparesOwn (id : LinkID) : Prop :=
  ∀ r, decisive C srv s le = some r → r.1.dirPath = d → r.1.dirLinkID = id

variable {C srv final d s le} {n : Path}

theorem comparison_dirPath {q : Path} {id : LinkID} {r : Comparison KR × List Link}
    (h : compared srv s q id = some r) : r.1.dirPath = q ∧ r.1.dirLinkID = id ∧ q ≠ [] ∧
      s.nodeKRs.lookup id = some r.1.kr ∧ (∃ k, s.metaCache.getListStale q = some (r.1.old, k)) ∧
      srv.children id = some r.2 := by
  obtain ⟨c, hc, hr⟩ := Option.bind_eq_some_iff.mp h
  obtain ⟨new, hnew, rfl⟩ := Option.map_eq_some_iff.mp hr
  obtain ⟨hdiff, hpath, hid⟩ := comparison_some hc
  simp only [diffable] at hdiff
  split_ifs at hdiff with hq
  obtain ⟨⟨old, k⟩, hold, hmap⟩ := Option.bind_eq_some_iff.mp hdiff
  obtain ⟨kr, hkr, hpair⟩ := Option.map_eq_some_iff.mp hmap
  cases hpair
  exact ⟨hpath, hid, hq, hkr, ⟨k, hold⟩, hnew⟩

/-- Names of two directories do not meet. -/
theorem child_eq_child {q m : Path} (hd : IsAbsolute d) (hq : IsAbsolute q) (hn : IsComponent n)
    (hm : IsComponent m) (h : child q m = child d n) : q = d ∧ m = n := by
  have hdir : q = d := by
    rw [← dir_child hq hm.noSlash, h, dir_child hd hn.noSlash]
  subst hdir
  exact ⟨rfl, child_injective h⟩

theorem missingAt_iff {kr : KR} {old new : List Link} :
    missingAt d (decryptNames C kr old) (decryptNames C kr new) (child d n) = true ↔
      Named C kr old n ∧ ¬Named C kr new n := by
  simp only [missingAt, List.any_eq_true, Bool.and_eq_true, beq_iff_eq, Option.isNone_iff_eq_none,
    lookup_decryptNames_eq_none, mem_keys_decryptNames]
  constructor
  · rintro ⟨m, hm, hc, hno⟩
    cases child_injective hc
    exact ⟨hm, hno⟩
  · rintro ⟨hm, hno⟩
    exact ⟨n, hm, rfl, hno⟩

/-- A comparison elsewhere tells nothing of a name of `d`. -/
theorem comparisonTells_elsewhere (hC : C.NamesAreComponents) (hd : IsAbsolute d)
    {c : Comparison KR} (hc : IsAbsolute c.dirPath) (hne : c.dirPath ≠ d) (hn : IsComponent n)
    (new : List Link) : comparisonTells C d n c new = none := by
  have hno : ∀ a b, missingAt c.dirPath (decryptNames C c.kr a) (decryptNames C c.kr b)
      (child d n) = false := by
    intro a b
    refine Bool.eq_false_iff.mpr fun h => ?_
    simp only [missingAt, List.any_eq_true, Bool.and_eq_true, beq_iff_eq] at h
    obtain ⟨m, hm, hpath, -⟩ := h
    obtain ⟨l, -, hl⟩ := mem_keys_decryptNames.mp hm
    exact hne (child_eq_child hd hc hn (hC l c.kr m hl) hpath).1
  simp only [comparisonTells, hno, Bool.false_eq_true, if_false]

/-- What a comparison of `d` leaves: the server's names, where the client's agreed with either
listing. -/
theorem comparisonTells_here {c : Comparison KR} {new : List Link} {shown : Bool}
    (hshown : (shown = true ↔ Named C c.kr new n) ∨ (Named C c.kr c.old n ↔ shown = true)) :
    (comparisonTells C c.dirPath n c new).getD shown = true ↔ Named C c.kr new n := by
  have hgone := @missingAt_iff KR C c.dirPath n c.kr c.old new
  have hcame := @missingAt_iff KR C c.dirPath n c.kr new c.old
  simp only [comparisonTells]
  split_ifs with h h'
  · simpa using (hgone.mp h).2
  · simpa using (hcame.mp h').1
  · rw [Option.getD_none]
    have hsame : Named C c.kr c.old n ↔ Named C c.kr new n := by
      rw [hgone] at h
      rw [hcame] at h'
      tauto
    exact hshown.elim id fun ho => ho.symm.trans hsame

/-- A decisive comparison is of the link's listing or the parent's, and it does the telling. -/
theorem decisive_some {r : Comparison KR × List Link} (h : decisive C srv s le = some r) :
    (∃ id, compared srv s (s.linkPath id) id = some r ∧ (id = le.link.linkID ∧
        le.eventType ≠ .create ∨ id = le.link.parentLinkID)) ∧ le.eventType ≠ .delete ∧
      tells C srv final d n s le = comparisonTells C d n r.1 r.2 := by
  simp only [decisive] at h
  simp only [tells]
  cases ht : le.eventType with
  | delete =>
    rw [ht] at h
    cases h
  | create =>
    simp only [ht] at h ⊢
    split_ifs at h with hc
    rw [Option.not_isSome_iff_eq_none.mp hc]
    exact ⟨⟨le.link.parentLinkID, h, .inr rfl⟩, by decide, by simp only [h]⟩
  | update | updateMetadata =>
    simp only [ht] at h ⊢
    refine ⟨?_, by decide, by simp only [h]⟩
    rcases Option.or_eq_some_iff.mp h with hown | ⟨-, hparent⟩
    · exact ⟨le.link.linkID, hown, .inl ⟨rfl, by decide⟩⟩
    · exact ⟨le.link.parentLinkID, hparent, .inr rfl⟩

/-- What an event says of a name of `d`, it says of a place whose invalidation drops the listing
of `d`. -/
theorem Says.gone (hd : IsAbsolute d) (hn : IsComponent n) {b : Bool}
    (h : Says C srv d s le n b) (w : World) : Gone w s le d := by
  have hnear : ∀ q, q = child d n → Near d q := by
    rintro q rfl
    exact ⟨(hd.child hn).ne_nil, .inr (dir_child hd hn.noSlash).symm⟩
  cases h with
  | deleted ht hq => exact .inr (.inl ⟨by simp [ht], hnear _ hq⟩)
  | created ht hpp hname =>
    refine .inr (.inr (.inl ⟨by simp [ht], ?_⟩))
    rw [hpp]
    exact ⟨hd.ne_nil, .inl rfl⟩
  | trashed hc _ _ _ hq => exact .inr (.inl ⟨hc, hnear _ hq⟩)

/-- An event says one thing of a name. -/
theorem Says.unique {b b' : Bool} (h : Says C srv d s le n b) (h' : Says C srv d s le n b') :
    b = b' := by
  cases h with
  | deleted ht _ | trashed ht =>
    cases h' with
    | deleted _ _ | trashed _ => rfl
    | created ht' _ _ => simp_all
  | created ht _ _ =>
    cases h' with
    | created _ _ _ => rfl
    | deleted ht' _ | trashed ht' => simp_all

/-- An event that has `d` compared or read again says nothing on the record. -/
theorem Refreshes.silent (hd : IsAbsolute d) (hn : IsComponent n) (h : Refreshes C srv d s le)
    (b : Bool) : ¬Says C srv d s le n b := by
  have hchild : child d n ≠ [] := (hd.child hn).ne_nil
  have hdec : ∀ r, decisive C srv s le = some r → ¬Says C srv d s le n b := by
    rintro r hr (⟨ht, -⟩ | ⟨ht, -, hname⟩ | ⟨-, -, hnone, -⟩)
    · simp [decisive, ht] at hr
    · simp [decisive, ht, hname] at hr
    · cases hr.symm.trans hnone
  cases h with
  | compared hr _ => exact hdec _ hr
  | unplaced hc _ hp _ =>
    rintro (⟨-, hq⟩ | ⟨ht, -⟩ | ⟨-, -, -, -, hq⟩)
    · exact hchild (hq.symm.trans hp)
    · exact hc ht
    · exact hchild (hq.symm.trans hp)
  | unnamed ht _ hname _ =>
    rintro (⟨ht', -⟩ | ⟨-, -, hname'⟩ | ⟨hc, -⟩)
    · cases ht.symm.trans ht'
    · cases hname.symm.trans hname'
    · exact hc ht
  | itself hc hdel _ htrash _ =>
    rintro (⟨ht, -⟩ | ⟨ht, -⟩ | ⟨-, -, -, htrash', -⟩)
    · exact hdel ht
    · exact hc ht
    · cases htrash.symm.trans htrash'

theorem rereads_eq (q : Path) (hd : d ≠ []) :
    rereads final d n q = if q = d then some (final n) else none := by
  simp only [rereads]
  by_cases hq : q = d
  · simp [hq, hd]
  · simp [hq]

/-- Without a comparison an update is told of by the record and the state of the link. -/
theorem update_tells (hc : le.eventType ≠ .create) (hdel : le.eventType ≠ .delete)
    (h : decisive C srv s le = none) :
    tells C srv final d n s le =
      if s.linkPath le.link.linkID = [] then rereads final d n (s.linkPath le.link.parentLinkID)
      else if inTrash srv le.link.linkID then removes d n (s.linkPath le.link.linkID)
      else rereads final d n (s.linkPath le.link.linkID) := by
  simp only [decisive] at h
  simp only [tells]
  cases ht : le.eventType with
  | create => exact absurd ht hc
  | delete => exact absurd ht hdel
  | update | updateMetadata =>
    simp only [ht] at h ⊢
    simp only [h]

/-- A refresh leaves a name as it is in the end, when the client or the cached listing agrees
with what it was. -/
theorem tells_refreshes {kr : KR} {id : LinkID} (hd : d ≠ [])
    (hkr : s.nodeKRs.lookup id = some kr)
    (hfinal : final n = true ↔ Named C kr ((srv.children id).getD []) n)
    (hown : ComparesOwn C srv d s le id)
    (hr : Refreshes C srv d s le) {shown : Bool}
    (hshown : shown = final n ∨
      ∀ r, s.metaCache.getListStale d = some r → (Named C kr r.1 n ↔ shown = true)) :
    (tells C srv final d n s le).getD shown = final n := by
  cases hr with
  | compared hdec hpath =>
    rename_i r
    obtain ⟨⟨i, hi, -⟩, -, htells⟩ := @decisive_some KR C srv final d s le n r hdec
    obtain ⟨-, hid, -, hkr', ⟨k, hold⟩, hnew⟩ := comparison_dirPath hi
    have hside : r.1.dirLinkID = id := hown r hdec hpath
    rw [← hid, hside, hkr] at hkr'
    have hk : kr = r.1.kr := Option.some.inj hkr'
    rw [← hid, hside] at hnew
    rw [hnew, Option.getD_some, hk] at hfinal
    rw [htells, ← hpath]
    rw [Bool.eq_iff_iff, hfinal]
    refine comparisonTells_here (hshown.imp (fun h => by rw [h]; exact hfinal) fun h => ?_)
    rw [← hk]
    refine h (r.1.old, k) ?_
    rw [← hpath, ← hold, (comparison_dirPath hi).1]
  | unplaced hc hdec hp hpp =>
    have htells : tells C srv final d n s le =
        rereads final d n (s.linkPath le.link.parentLinkID) := by
      by_cases hdel : le.eventType = .delete
      · simp only [tells]
        simp only [hdel, hp, if_true]
      · rw [update_tells hc hdel hdec, if_pos hp]
    rw [htells, rereads_eq _ hd, if_pos hpp, Option.getD_some]
  | unnamed hcr hdec hname hpp =>
    have hnone : compared srv s (s.linkPath le.link.parentLinkID) le.link.parentLinkID = none := by
      simpa only [decisive, hcr, hname, Option.isSome_none, Bool.false_eq_true, if_false] using hdec
    simp only [tells]
    simp only [hcr, hname, hnone]
    rw [rereads_eq _ hd, if_pos hpp, Option.getD_some]
  | itself hc hdel hdec htrash hp =>
    have hne : s.linkPath le.link.linkID ≠ [] := hp ▸ hd
    rw [update_tells hc hdel hdec, if_neg hne, htrash]
    simp only [Bool.false_eq_true, if_false]
    rw [rereads_eq _ hd, if_pos hp, Option.getD_some]

/-- Without a refresh, an event tells of a name of `d` just what it says on the record. -/
theorem tells_said (hC : C.NamesAreComponents) (hs : PathsAbsolute s) (hd : IsAbsolute d)
    (hn : IsComponent n) (hr : ¬Refreshes C srv d s le) :
    (tells C srv final d n s le = none ∧ ∀ b, ¬Says C srv d s le n b) ∨
      ∃ b, Says C srv d s le n b ∧ tells C srv final d n s le = some b := by
  have hchild : child d n ≠ [] := (hd.child hn).ne_nil
  cases hdec : decisive C srv s le with
  | some r =>
    left
    obtain ⟨⟨i, hi, hside⟩, hdel, htells⟩ := @decisive_some KR C srv final d s le n r hdec
    obtain ⟨hpath, -, hne, -⟩ := comparison_dirPath hi
    refine ⟨?_, ?_⟩
    · rw [htells]
      exact comparisonTells_elsewhere hC hd (hpath ▸ linkPath_absolute hs hne)
        (fun h => hr (.compared hdec h)) hn r.2
    · rintro b (⟨ht, -⟩ | ⟨ht, -, hname⟩ | ⟨-, -, hnone, -⟩)
      · exact hdel ht
      · simp only [decisive, ht, hname, Option.isSome_some, if_true] at hdec
        cases hdec
      · cases hdec.symm.trans hnone
  | none =>
    have hother : ∀ q, q ≠ d → rereads final d n q = none :=
      fun q hq => (rereads_eq q hd.ne_nil).trans (if_neg hq)
    cases ht : le.eventType with
    | delete =>
      have hne : le.eventType ≠ .create := by simp [ht]
      simp only [tells]
      simp only [ht]
      split_ifs with hp
      · left
        refine ⟨hother _ fun hpp => hr (.unplaced hne hdec hp hpp), ?_⟩
        rintro b (⟨-, hq⟩ | ⟨hc, -⟩ | ⟨-, hdel, -⟩)
        · exact hchild (hq.symm.trans hp)
        · exact hne hc
        · exact hdel ht
      · rw [removes]
        split_ifs with hq
        · exact .inr ⟨false, .deleted ht hq, rfl⟩
        · left
          refine ⟨rfl, ?_⟩
          rintro b (⟨-, hq'⟩ | ⟨hc, -⟩ | ⟨-, hdel, -⟩)
          · exact hq hq'
          · exact hne hc
          · exact hdel ht
    | create =>
      have hsaid : ∀ b, Says C srv d s le n b →
          s.linkPath le.link.parentLinkID = d ∧ createdAs C srv s le.link = some n := by
        rintro b (⟨hdel, -⟩ | ⟨-, hpp, hname⟩ | ⟨hc, -⟩)
        · simp [ht] at hdel
        · exact ⟨hpp, hname⟩
        · exact absurd ht hc
      simp only [tells]
      simp only [ht]
      cases hname : createdAs C srv s le.link with
      | some m =>
        have hparent : IsAbsolute (s.linkPath le.link.parentLinkID) ∧ IsComponent m := by
          simp only [createdAs] at hname
          split_ifs at hname with hpp
          obtain ⟨kr, -, hm⟩ := Option.bind_eq_some_iff.mp hname
          refine ⟨linkPath_absolute hs hpp, ?_⟩
          rcases Option.or_eq_some_iff.mp (Option.filter_eq_some_iff.mp hm).1 with hm | ⟨-, hm⟩
          · exact hC _ kr m hm
          · obtain ⟨l, -, hl⟩ := Option.bind_eq_some_iff.mp hm
            exact hC l kr m hl
        simp only [adds]
        split_ifs with hq
        · obtain ⟨hpp, rfl⟩ := child_eq_child hd hparent.1 hn hparent.2 hq
          exact .inr ⟨true, .created ht hpp hname, rfl⟩
        · left
          refine ⟨rfl, fun b hb => hq ?_⟩
          obtain ⟨hpp, hname'⟩ := hsaid b hb
          cases hname.symm.trans hname'
          rw [hpp]
      | none =>
        have hnone : compared srv s (s.linkPath le.link.parentLinkID) le.link.parentLinkID =
            none := by
          simpa only [decisive, ht, hname, Option.isSome_none, Bool.false_eq_true, if_false]
            using hdec
        simp only [hnone]
        left
        refine ⟨hother _ fun hpp => hr (.unnamed ht hdec hname hpp), fun b hb => ?_⟩
        cases hname.symm.trans (hsaid b hb).2
    | update | updateMetadata =>
      have hc : le.eventType ≠ .create := by simp [ht]
      have hdel : le.eventType ≠ .delete := by simp [ht]
      have hsaid : ∀ b, Says C srv d s le n b → inTrash srv le.link.linkID = true ∧
          s.linkPath le.link.linkID = child d n ∧ b = false := by
        rintro b (⟨h, -⟩ | ⟨h, -⟩ | ⟨-, -, -, htrash, hq⟩)
        · exact absurd h hdel
        · exact absurd h hc
        · exact ⟨htrash, hq, rfl⟩
      rw [update_tells hc hdel hdec]
      split_ifs with hp htrash
      · left
        refine ⟨hother _ fun hpp => hr (.unplaced hc hdec hp hpp), fun b hb => ?_⟩
        exact hchild ((hsaid b hb).2.1.symm.trans hp)
      · rw [removes]
        split_ifs with hq
        · exact .inr ⟨false, .trashed hc hdel hdec htrash hq, rfl⟩
        · exact .inl ⟨rfl, fun b hb => hq (hsaid b hb).2.1⟩
      · left
        have hno : inTrash srv le.link.linkID = false := by simpa using htrash
        refine ⟨hother _ fun hq => hr (.itself hc hdel hdec hno hq), fun b hb => ?_⟩
        exact htrash (hsaid b hb).1

variable {w : World} {o : Attempt KR}

/-- A comparison changes no listing but the one it compares. -/
theorem diffCached_others (q : Path) (id : LinkID) (old : Option (List Link × KR))
    (s : Session KR) :
    (diffCached C w q id old s).Sat
      (fun _ s' => ∀ p, p ≠ q → s'.metaCache.lists.lookup p = s.metaCache.lists.lookup p)
      (fun _ s' => s'.metaCache.lists = s.metaCache.lists) := by
  rw [diffCached_eq]
  cases diffable q id old s with
  | none => exact rfl
  | some r =>
    refine (diffAndEmit_spec q id r.2 r.1 s).mono ?_ ?_
    · rintro _ _ ⟨new, -, -, -, rfl⟩ p hp
      simp only [relisted]
      rw [recordChildren_eq]
      simp only [Session.tick, Session.setList, MetaCache.Cache.lookup_setList, if_neg hp]
    · rintro _ _ ⟨rfl, -⟩
      rfl

/-- A comparison leaves the listing of `d` as it is, but for a comparison at `d` itself. -/
theorem diffCached_list (hsrv : w.Serves srv) (hw : w.Reliable) {s₁ : Session KR}
    (hk : s₁.nodeKRs = s.nodeKRs) {q : Path} {id : LinkID}
    (hne : ∀ r, compared srv s q id = some r → q ≠ d) :
    (diffCached C w q id (s.metaCache.getListStale q) s₁).Sat
      (fun _ s' => s'.metaCache.lists.lookup d = s₁.metaCache.lists.lookup d)
      (fun _ s' => compared srv s q id = none ∧ s'.nodeKRs = s.nodeKRs ∧
        s'.metaCache.lists.lookup d = s₁.metaCache.lists.lookup d) := by
  refine ((diffCached_compared hsrv hw hk q id).and (diffCached_others q id _ s₁)).mono ?_ ?_
  · rintro _ s' ⟨⟨r, hr, -⟩, hothers⟩
    exact hothers d (hne r hr).symm
  · rintro _ s' ⟨⟨hnone, hk', -⟩, hlists⟩
    exact ⟨hnone, hk', by rw [hlists]⟩

theorem announceCreate_list (hsrv : w.Serves srv) (hw : w.Reliable) {s₁ : Session KR}
    (hk : s₁.nodeKRs = s.nodeKRs) (hcr : le.eventType = .create)
    (hno : ∀ r, decisive C srv s le = some r → r.1.dirPath ≠ d) :
    (announceCreate C w le.link s s₁).state.metaCache.lists.lookup d =
      s₁.metaCache.lists.lookup d := by
  apply Outcome.Sat.state (P := fun s' : Session KR =>
    s'.metaCache.lists.lookup d = s₁.metaCache.lists.lookup d)
  simp only [announceCreate]
  refine Outcome.Sat.recover ((announceCreated_spec ..).mono ?_ fun _ _ h => h) ?_
  · rintro _ _ ⟨m, s₂, -, -, ht, -, rfl⟩
    rcases ht with rfl | rfl <;> rfl
  rintro _ s₂ ⟨ht, hname⟩
  rw [announcedName_serves hsrv hw hk] at hname
  have hl₂ : s₂.metaCache.lists = s₁.metaCache.lists := by rcases ht with rfl | rfl <;> rfl
  have hdec : decisive C srv s le =
      compared srv s (s.linkPath le.link.parentLinkID) le.link.parentLinkID := by
    simp [decisive, hcr, hname]
  have hne : ∀ r, compared srv s (s.linkPath le.link.parentLinkID) le.link.parentLinkID = some r →
      s.linkPath le.link.parentLinkID ≠ d := fun r hr =>
    (comparison_dirPath hr).1 ▸ hno r (hdec.trans hr)
  refine Outcome.Sat.recover ((diffCached_list hsrv hw (ht.kept.nodeKRs.trans hk) hne).mono
    (fun _ _ h => h.trans (by rw [hl₂])) fun _ _ h => h) ?_
  rintro _ s₃ ⟨-, -, h₃⟩
  exact h₃.trans (by rw [hl₂])

theorem announceUpdate_list (hsrv : w.Serves srv) (hw : w.Reliable) {s₁ : Session KR}
    (hk : s₁.nodeKRs = s.nodeKRs) (hu : le.eventType ≠ .create ∧ le.eventType ≠ .delete)
    (hno : ∀ r, decisive C srv s le = some r → r.1.dirPath ≠ d) :
    (announceUpdate C w le.link s s₁).state.metaCache.lists.lookup d =
      s₁.metaCache.lists.lookup d := by
  apply Outcome.Sat.state (P := fun s' : Session KR =>
    s'.metaCache.lists.lookup d = s₁.metaCache.lists.lookup d)
  have hdec : decisive C srv s le =
      (compared srv s (s.linkPath le.link.linkID) le.link.linkID).or
        (compared srv s (s.linkPath le.link.parentLinkID) le.link.parentLinkID) := by
    simp only [decisive]
    cases ht : le.eventType with
    | create => exact absurd ht hu.1
    | delete => exact absurd ht hu.2
    | update | updateMetadata => rfl
  simp only [announceUpdate]
  refine Outcome.Sat.recover ((diffCached_list hsrv hw hk fun r hr => ?_).mono
    (fun _ _ h => h) fun _ _ h => h) ?_
  · exact (comparison_dirPath hr).1 ▸ hno r (by rw [hdec, hr, Option.some_or])
  rintro _ s₂ ⟨hnone, hk₂, h₂⟩
  refine Outcome.Sat.recover ((diffCached_list hsrv hw hk₂ fun r hr => ?_).mono
    (fun _ _ h => h.trans h₂) fun _ _ h => h) ?_
  · exact (comparison_dirPath hr).1 ▸ hno r (by rw [hdec, hnone, Option.none_or, hr])
  rintro _ s₃ ⟨-, -, h₃⟩
  refine Outcome.Sat.recover ((announceTrashed_spec ..).mono ?_ fun _ _ h => h.1) ?_
  · rintro _ _ ⟨l, -, -, -, -, -, rfl⟩
    exact h₃.trans h₂
  · rintro _ s₄ h₄
    have hl₄ : s₄.metaCache.lists = s₃.metaCache.lists := by rcases h₄ with rfl | rfl <;> rfl
    exact (congrArg (AList.lookup d) hl₄).trans (h₃.trans h₂)

/-- Without a comparison of `d`, an event leaves of its listing what its invalidations leave. -/
theorem handle_list (hsrv : w.Serves srv) (hw : w.Reliable) (hr : ¬Refreshes C srv d s le)
    (ho : handle C w le s = some o) : o.state.metaCache.lists.lookup d =
      (invalidated w s le).metaCache.lists.lookup d := by
  have hno : ∀ r, decisive C srv s le = some r → r.1.dirPath ≠ d :=
    fun r hdec hpath => hr (.compared hdec hpath)
  rcases handle_cases ho with ⟨hc, rfl⟩ | ⟨hdel, s₁, hs₁, rfl⟩ | ⟨hu, s₁, hs₁, rfl⟩
  · rw [announceCreate_list hsrv hw nodeKRs_invalidateCreated hc hno]
    simp only [invalidated, hc]
  · obtain ⟨bc, -, rfl⟩ := dropBlocks_eq_some hs₁
    rw [announceDelete_kept]
    simp only [invalidated, hdel]
  · obtain ⟨bc, -, rfl⟩ := dropBlocks_eq_some hs₁
    refine (announceUpdate_list hsrv hw ?_ hu hno).trans ?_
    · exact nodeKRs_invalidateUpdated
    simp only [invalidated]
    cases ht : le.eventType with
    | create => exact absurd ht hu.1
    | delete => exact absurd ht hu.2
    | update | updateMetadata => rfl

end Steps

section Runs

variable {KR : Type} {C : Crypto KR} {srv : Server} {final shown : Path → Bool} {d : Path}
  {id : LinkID} {kr : KR} {w : World} {s s' : Session KR}

/-- The loop of `poll`: what the events of one batch enqueue, in order. -/
def handleEvents (C : Crypto KR) (w : World) :
    List LinkEvent → Session KR → Option (List DriveEvent × Session KR)
  | [], s => some ([], s)
  | le :: les, s => match handle C w le s with
    | none => none
    | some o => (handleEvents C w les o.state).map fun r =>
      (o.result.toOption.getD [] ++ r.1, r.2)

def afterEvent (C : Crypto KR) (w : World) (s : Session KR) (le : LinkEvent) :
    Option (Session KR) := (handle C w le s).map fun o => o.state

/-- The active names of a folder. -/
def activeNames (C : Crypto KR) (kr : KR) (srv : Server) (id : LinkID) (n : Path) : Bool :=
  ((srv.children id).getD []).any fun l => C.getName l kr = some n

theorem activeNames_iff {n : Path} :
    activeNames C kr srv id n = true ↔ Named C kr ((srv.children id).getD []) n := by
  simp [activeNames, Named]

/-- The client shows the final names. -/
def Exact (final shown : Path → Bool) : Prop := ∀ n, IsComponent n → shown n = final n

/-- The client shows the names of the cached listing. -/
def Shows (C : Crypto KR) (kr : KR) (d : Path) (s : Session KR) (shown : Path → Bool) : Prop :=
  ∃ r, s.metaCache.getListStale d = some r ∧
    ∀ n, IsComponent n → (Named C kr r.1 n ↔ shown n = true)

/-- The client shows a name as it is in the end, or as the cached listing has it. -/
def InStep (C : Crypto KR) (kr : KR) (final : Path → Bool) (d : Path) (s : Session KR)
    (shown : Path → Bool) (n : Path) : Prop :=
  shown n = final n ∨
    ∀ r, s.metaCache.getListStale d = some r → (Named C kr r.1 n ↔ shown n = true)

theorem Shows.inStep {n : Path} (h : Shows C kr d s shown) (hn : IsComponent n) :
    InStep C kr final d s shown n := by
  obtain ⟨r, hold, hnames⟩ := h
  refine .inr fun r' hr' => ?_
  cases hold.symm.trans hr'
  exact hnames n hn

theorem handle_isSome (hb : s.blocks.isSome) (w : World) (le : LinkEvent) :
    ∃ o, handle C w le s = some o ∧ o.state.blocks.isSome := by
  obtain ⟨bc, hbc⟩ := Option.isSome_iff_exists.mp hb
  have hdrop : ∀ s₁ : Session KR, s₁.blocks = s.blocks → ∃ s₂,
      dropBlocks le.link.linkID s₁ = some s₂ ∧ s₂.blocks.isSome := by
    intro s₁ hs₁
    exact ⟨_, by rw [dropBlocks, hs₁, hbc, Option.map_some], rfl⟩
  have hdeleted : (invalidateDeleted w le.link s).blocks = s.blocks := by
    simp only [invalidateDeleted]
    split_ifs <;> rfl
  have hcreated : (invalidateCreated w le.link s).blocks = s.blocks := by
    simp only [invalidateCreated]
    split_ifs <;> rfl
  simp only [handle]
  cases le.eventType with
  | create => exact ⟨_, rfl, by rw [handleCreate, (announceCreate_kept ..).blocks, hcreated, hb]⟩
  | delete =>
    obtain ⟨s₂, hs₂, hb₂⟩ := hdrop (invalidateDeleted w le.link s) hdeleted
    refine ⟨announceDelete le.link s s₂, ?_, by rw [announceDelete_kept, hb₂]⟩
    simp only [handleDelete, hs₂, Option.map_some]
  | update | updateMetadata =>
    obtain ⟨s₂, hs₂, hb₂⟩ := hdrop (invalidateUpdated w le.link s) invalidateUpdated_blocks
    refine ⟨announceUpdate C w le.link s s₂, ?_, by rw [(announceUpdate_kept ..).blocks, hb₂]⟩
    simp only [handleUpdate, hs₂, Option.map_some]

/-- What one event leaves of a name that the client shows. -/
theorem handle_name (hsrv : w.Serves srv) (hw : w.Reliable) (hC : C.NamesAreComponents)
    (hs : PathsAbsolute s) (hd : IsAbsolute d) (hkr : s.nodeKRs.lookup id = some kr)
    {le : LinkEvent} (hown : ComparesOwn C srv d s le id) {evs : List DriveEvent}
    (h : handle C w le s = some ⟨.ok evs, s'⟩) {n : Path} (hn : IsComponent n)
    (hstep : InStep C kr (activeNames C kr srv id) d s shown n) {shown' : Path → Bool}
    (hshown' : evs.foldl (clientStep (activeNames C kr srv id) d) shown = shown') :
    (Corrects C srv (activeNames C kr srv id) d s le n → shown' n = activeNames C kr srv id n) ∧
      (Misleads C srv (activeNames C kr srv id) d s le n →
        ¬Corrects C srv (activeNames C kr srv id) d s le n ∧
          shown' n ≠ activeNames C kr srv id n) ∧
      (¬Corrects C srv (activeNames C kr srv id) d s le n →
        ¬Misleads C srv (activeNames C kr srv id) d s le n → shown' n = shown n) ∧
      InStep C kr (activeNames C kr srv id) d s' shown' n := by
  have hword : shown' n = (tells C srv (activeNames C kr srv id) d n s le).getD (shown n) := by
    have ht : (⟨.ok evs, s'⟩ : Attempt KR).Sat (fun evs _ =>
        lastWord (activeNames C kr srv id) d n evs =
          tells C srv (activeNames C kr srv id) d n s le) fun _ _ => False :=
      handle_tells hsrv hw h
    rw [← hshown', replay_eq, show lastWord _ d n evs = _ from ht]
  by_cases hr : Refreshes C srv d s le
  · have hright : shown' n = activeNames C kr srv id n := by
      rw [hword]
      exact tells_refreshes hd.ne_nil hkr activeNames_iff hown hr hstep
    exact ⟨fun _ => hright, fun hm => absurd hm (hr.silent hd hn _),
      fun hno => absurd (.inl hr) hno, .inl hright⟩
  have hlist := handle_list hsrv hw hr h
  rcases tells_said hC hs hd hn hr with ⟨hnone, hsilent⟩ | ⟨b, hb, hsome⟩
  · -- nothing is said of the name, and its listing stays or goes
    have hkept : shown' n = shown n := by rw [hword, hnone, Option.getD_none]
    refine ⟨fun hc => absurd (hc.resolve_left hr) (hsilent _), fun hm => absurd hm (hsilent _),
      fun _ _ => hkept, ?_⟩
    rw [InStep, hkept]
    refine hstep.imp_right fun hold r hcached => hold r ?_
    obtain ⟨e, he, rfl⟩ := Option.map_eq_some_iff.mp hcached
    exact Option.map_eq_some_iff.mpr ⟨e, invalidated_below.lists d e (hlist ▸ he), rfl⟩
  · -- what is said is shown, and the listing is gone
    have hsaid : shown' n = b := by rw [hword, hsome, Option.getD_some]
    have hgone : s'.metaCache.getListStale d = none := by
      rw [MetaCache.Cache.getListStale, hlist,
        lists_invalidated_eq_none.mpr (hb.gone hd hn w), Option.map_none]
    refine ⟨fun hc => hsaid.trans (hb.unique (hc.resolve_left hr)), fun hm => ?_,
      fun hno hno' => ?_, .inr fun r hcached => ?_⟩
    · have hfalse := hb.unique hm
      refine ⟨fun hc => ?_, ?_⟩
      · have htrue := hb.unique (hc.resolve_left hr)
        exact absurd (htrue.symm.trans hfalse) (by simp)
      · rw [hsaid, hfalse]
        simp
    · rcases Bool.eq_or_eq_not b (activeNames C kr srv id n) with rfl | rfl
      · exact absurd (.inr hb) hno
      · exact absurd hb hno'
    · cases hgone.symm.trans hcached

/-- How a client ends that replays the notifications of a log: with the final state of a name
exactly when no false word on it is the last. -/
theorem handleEvents_name (hsrv : w.Serves srv) (hw : w.Reliable) (hC : C.NamesAreComponents)
    (hd : IsAbsolute d) {les : List LinkEvent} (hb : s.blocks.isSome) (hs : PathsAbsolute s)
    (hkr : s.nodeKRs.lookup id = some kr)
    (hown : Along (afterEvent C w) (fun s le => ComparesOwn C srv d s le id) s les)
    (hstep : ∀ n, IsComponent n → InStep C kr (activeNames C kr srv id) d s shown n) :
    ∃ xs s', handleEvents C w les s = some (xs, s') ∧ ∀ n, IsComponent n →
      (xs.foldl (clientStep (activeNames C kr srv id) d) shown n = activeNames C kr srv id n ↔
        Followed (afterEvent C w) (fun s le => Misleads C srv (activeNames C kr srv id) d s le n)
          (fun s le => Corrects C srv (activeNames C kr srv id) d s le n) s les ∧
        (shown n = activeNames C kr srv id n ∨ Sometime (afterEvent C w)
          (fun s le => Corrects C srv (activeNames C kr srv id) d s le n) s les)) := by
  induction les generalizing s shown with
  | nil => exact ⟨[], s, rfl, fun n _ => by simp [Followed, Sometime]⟩
  | cons le les ih =>
    obtain ⟨⟨r, s₁⟩, ho, hb'⟩ := handle_isSome (C := C) hb w le
    cases r with
    | error e =>
      have hnever := @handle_tells KR C srv (fun _ => false) d [] w s hsrv hw le _ ho
      exact hnever.elim
    | ok evs =>
      have hafter : afterEvent C w s le = some s₁ := by rw [afterEvent, ho, Option.map_some]
      have hname := fun n hn => handle_name hsrv hw hC hs hd hkr hown.1 ho hn (hstep n hn)
        (rfl : evs.foldl (clientStep (activeNames C kr srv id) d) shown = _)
      obtain ⟨xs, s', hxs, hend⟩ := ih hb' (handle_pathsAbsolute hC hs ho)
        ((congrArg (AList.lookup id) (handle_nodeKRs ho)).trans hkr) (hown.2 s₁ hafter)
        fun n hn => (hname n hn).2.2.2
      refine ⟨evs ++ xs, s', ?_, fun n hn => ?_⟩
      · simp only [handleEvents, ho, hxs, Option.map_some]
        rfl
      · obtain ⟨hcorrects, hmisleads, hkeeps, -⟩ := hname n hn
        rw [List.foldl_append, hend n hn]
        refine (followed_cons hafter hcorrects hmisleads fun hc hm => ?_).symm
        rw [hkeeps hc hm]

theorem says_created {C : Crypto KR} {le : LinkEvent} {m n : Path} {b : Bool}
    (ht : le.eventType = .create) (hm : createdAs C srv s le.link = some m)
    (h : Says C srv d s le n b) : n = m ∧ b = true := by
  cases h with
  | deleted ht' | trashed ht' => simp_all
  | created _ _ hname =>
    cases hm.symm.trans hname
    exact ⟨rfl, rfl⟩

theorem says_deleted {C : Crypto KR} {le : LinkEvent} {m n : Path} {b : Bool}
    (ht : le.eventType = .delete) (hm : s.linkPath le.link.linkID = child d m)
    (h : Says C srv d s le n b) : n = m ∧ b = false := by
  cases h with
  | deleted _ hq => exact ⟨child_injective (hq.symm.trans hm), rfl⟩
  | created ht' | trashed _ ht' => simp_all

end Runs

end ProtonDrive.LastWords
