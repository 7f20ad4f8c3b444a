import ProtonDrive.SessionRuns
import ProtonDrive.EventReplay
import ProtonDrive.PartialRuns

/-!
# Links that move between the steps

The server holds one tree while a step lasts and another one at the next step. A step finds
links at places of its tree: on the walk of a path, below the parent of a created link, or in
the listing that an event compares. As long as no link is found at one place while an old
place of it stays registered, the path maps are inverse to each other.
-/

namespace ProtonDrive.TrackedMaps
open SlashPaths KeyedMaps FallibleSteps DriveApi DriveSession RemoteTree EventPoller
  ChangeNotices EventReplay PathMaps SessionViews SessionRuns PartialRuns

variable {KR : Type} {C : Crypto KR} {t : Tree} {w : World} {s s' : Session KR}

/-- A step of a run, in a world whose server holds one tree while the step lasts. -/
structure Moment where
  tree : Tree
  world : World
  serves : world.Serves tree.toServer
  op : Op

def advance (C : Crypto KR) (s : Session KR) (m : Moment) : Option (Session KR) :=
  step C m.world s m.op

section Places

variable (C t w s)

/-- The path that a call resolves by a walk, unless a cache or a registered path answers. -/
def walked : Call → Option Path
  | .resolvePath p => if (s.resolved (absolute p)).isSome then none else some p
  | .listChildren p =>
    if (s.metaCache.getList (w.now s.ticks) p).isSome ∨ (s.resolved (absolute p)).isSome then none
    else some p
  | .stat p =>
    let d := dir (absolute p)
    if (s.metaCache.getStat (w.now s.ticks) (absolute p)).isSome ∨ absolute p = ['/'] ∨
      (s.resolved (absolute d)).isSome then none else some d
  | .invalidatePath _ | .invalidateLinkID _ | .invalidateAll => none

/-- The place of a link on the walk of a path; the root has its place without any keyring. -/
def OnWalk (p : Path) (id : LinkID) (q : Path) : Prop :=
  (id = s.rootID ∧ q = ['/']) ∨ ∃ kr es m, rootKey C t s = some kr ∧ es <+: splitPath p ∧
    t.descend C (s.rootID, kr) es = some m ∧ id = m.1 ∧ q = render es

/-- The place of a link in the server's listing of a directory whose cached listing can be
compared with it. -/
def InListing (dirID id : LinkID) (q : Path) : Prop :=
  ∃ r l n, compared t.toServer s (s.linkPath dirID) dirID = some r ∧ l ∈ r.2 ∧
    C.getName l r.1.kr = some n ∧ id = l.linkID ∧ q = child (s.linkPath dirID) n

/-- The place of a link that the handling of an event can come upon. -/
def EventFinds (le : LinkEvent) (id : LinkID) (q : Path) : Prop :=
  match le.eventType with
  | .delete => False
  | .create => match createdAs C t.toServer s le.link with
    | some n => (id = le.link.linkID ∧ q = child (s.linkPath le.link.parentLinkID) n) ∨
        (¬w.Reliable ∧ InListing C t s le.link.parentLinkID id q)
    | none => InListing C t s le.link.parentLinkID id q
  | .update | .updateMetadata => InListing C t s le.link.linkID id q ∨
      ((w.Reliable → compared t.toServer s (s.linkPath le.link.linkID) le.link.linkID = none) ∧
        InListing C t s le.link.parentLinkID id q)

/-- A link that a call finds at a place is registered, if at all, on the way to it; a link that
an event finds is registered there or where the event clears. -/
def Tracked (s : Session KR) (m : Moment) : Prop :=
  match m.op with
  | .call c => ∀ p id q r, walked m.world s c = some p → OnWalk C m.tree s p id q →
      s.pathLinks.lookup r = some id → OnWay q r
  | .event le => ∀ id q r, EventFinds C m.tree m.world s le id q →
      s.pathLinks.lookup r = some id → r = q ∨ Cleared s le r

end Places

section Walks

/-- The bindings of a walk are places of the tree, each with its way. -/
theorem mem_walkBindings (hw : w.Serves t.toServer) {ds parts : List Path} {n : Node KR}
    {tick : ℕ} (hds : ∀ e ∈ ds, IsComponent e) (hparts : ∀ e ∈ parts, IsComponent e)
    {b : LinkID × Path} (hb : b ∈ walkBindings C w parts n.1 n.2 (render ds) tick) :
    ∃ es m, es <+: parts ∧ t.descend C n es = some m ∧ b = (m.1, render (ds ++ es)) ∧
      ∀ fs, fs <+: es → fs ≠ [] →
        render (ds ++ fs) ∈ (walkBindings C w parts n.1 n.2 (render ds) tick).map Prod.snd := by
  induction parts generalizing ds n tick with
  | nil => cases hb
  | cons part parts ih =>
    simp only [walkBindings] at hb ⊢
    cases ha : (w.answer tick fun srv => srv.children n.1).bind (findChild C n.2 part) with
    | none =>
      rw [ha] at hb
      cases hb
    | some l =>
      simp only [ha] at hb ⊢
      cases hk : C.getKeyRing l n.2 with
      | none =>
        simp only [hk] at hb
        cases hb
      | some kr =>
        simp only [hk, extendPath_render hds] at hb ⊢
        have henter : t.enter C n part = some (l.linkID, kr) := by
          obtain ⟨ls, hls, hl⟩ := Option.bind_eq_some_iff.mp ha
          simp only [World.answer, hw tick] at hls
          split_ifs at hls
          simp [Tree.enter, hls, hl, hk]
        have hds' : ∀ e ∈ ds ++ [part], IsComponent e := by
          intro e he
          rcases List.mem_append.mp he with he | he
          · exact hds e he
          · exact hparts e (by simp [List.mem_singleton.mp he])
        rcases List.mem_cons.mp hb with rfl | hb
        · refine ⟨[part], (l.linkID, kr), by simp, by simp [Tree.descend, henter], rfl, ?_⟩
          intro fs hfs hne
          rcases List.prefix_cons_iff.mp hfs with rfl | ⟨gs, rfl, hgs⟩
          · exact absurd rfl hne
          · rw [List.prefix_nil.mp hgs]
            exact List.mem_cons_self
        · obtain ⟨es, m, hes, hm, rfl, hway⟩ :=
            ih (n := (l.linkID, kr)) hds' (fun e he => hparts e (List.mem_cons_of_mem _ he)) hb
          refine ⟨part :: es, m, by simpa using hes, by simp [Tree.descend, henter, hm],
            by simp, ?_⟩
          intro fs hfs hne
          rcases List.prefix_cons_iff.mp hfs with rfl | ⟨gs, rfl, hgs⟩
          · exact absurd rfl hne
          · by_cases hgs' : gs = []
            · rw [hgs']
              exact List.mem_cons_self
            · have hmem := hway gs hgs hgs'
              rw [List.append_assoc] at hmem
              exact List.mem_cons_of_mem _ hmem

/-- What a session opens the root with is the keyring of the root on the server. -/
theorem rootNodeKeyRing_rootKey (hw : w.Serves t.toServer) (ht : t.rootID = s.rootID) {kr : KR}
    {s₁ : Session KR} (h : s.rootNodeKeyRing C w = ⟨.ok kr, s₁⟩) :
    rootKey C t s = some kr ∧ s₁.rootID = s.rootID := by
  have hl : (s.rootNodeKeyRing C w).Sat
      (fun kr s' => Leaves C w (fun _ => False) s s' ∧ s'.nodeKRs.lookup s'.rootID = some kr)
      (fun _ s' => Leaves C w (fun _ => False) s s') := rootNodeKeyRing_leaves s
  rw [h] at hl
  obtain ⟨hleaves, hkr⟩ := hl
  refine ⟨?_, hleaves.rootID⟩
  rw [← hleaves.rootKey t ht hw, rootKey, hkr, Option.some_or]

/-- What a walk records are places on the walk; the places on their ways are registered. -/
theorem resolveWrites_onWalk (hw : w.Serves t.toServer) (ht : t.rootID = s.rootID) {p : Path}
    (hp : s.resolved (absolute p) = none) {b : LinkID × Path}
    (hb : b ∈ (resolveWrites C w s p).recorded) :
    OnWalk C t s p b.1 b.2 ∧ ∀ r, OnWay b.2 r →
      r = b.2 ∨ r ∈ (resolveWrites C w s p).registered.map Prod.snd := by
  have hroot : ∀ r, OnWay ['/'] r → r = ['/'] := by
    rintro r ⟨es, hes, rfl⟩
    rw [show elements true ['/'] = [] by decide, List.prefix_nil] at hes
    rw [hes]
    rfl
  simp only [resolveWrites, hp] at hb ⊢
  rcases hrun : (s.setLinkPath s.rootID ['/']).rootNodeKeyRing C w with ⟨e | kr, s₁⟩
  · rw [hrun] at hb
    cases List.mem_singleton.mp hb
    exact ⟨.inl ⟨rfl, rfl⟩, fun r hr => .inl (hroot r hr)⟩
  · obtain ⟨hkey, hid⟩ := rootNodeKeyRing_rootKey (t := t)
      (s := s.setLinkPath s.rootID ['/']) hw ht hrun
    simp only [hrun] at hb ⊢
    rcases List.mem_cons.mp hb with rfl | hb
    · exact ⟨.inl ⟨rfl, rfl⟩, fun r hr => .inl (hroot r hr)⟩
    have hsplit : splitPath (absolute p) = splitPath p := by
      simp only [splitPath_eq, elements_absolute]
    have hcomp : ∀ e ∈ splitPath p, IsComponent e := by
      rw [splitPath_eq]
      exact elements_components p
    rw [hsplit] at hb ⊢
    obtain ⟨es, m, hes, hm, rfl, hway⟩ := mem_walkBindings (n := (s₁.rootID, kr)) hw
      (show ∀ e ∈ ([] : List Path), IsComponent e by simp) hcomp hb
    rw [hid] at hm
    refine ⟨.inr ⟨kr, es, m, hkey, hes, hm, rfl, rfl⟩, ?_⟩
    rintro r ⟨fs, hfs, rfl⟩
    right
    rw [List.nil_append, elements_render fun e he => hcomp e (hes.subset he)] at hfs
    by_cases hne : fs = []
    · rw [hne]
      exact List.mem_cons_self
    · exact List.mem_cons_of_mem _ (hway fs hfs hne)

theorem descend_self {k k' : KR} {es : List Path}
    (h : t.descend C (t.rootID, k) es = some (t.rootID, k')) : es = [] :=
  Tree.descend_injective h (show t.descend C (t.rootID, k) [] = some (t.rootID, k) from rfl)

/-- A link has one place on a walk. -/
theorem OnWalk.unique (ht : t.rootID = s.rootID) {p q r : Path} {id : LinkID}
    (h : OnWalk C t s p id q) (h' : OnWalk C t s p id r) : q = r := by
  rcases h with ⟨hid, rfl⟩ | ⟨kr, es, ⟨i, k⟩, hkr, -, hm, hid, rfl⟩ <;>
    rcases h' with ⟨hid', rfl⟩ | ⟨kr', fs, ⟨i', k'⟩, hkr', -, hm', hid', rfl⟩
  · rfl
  · have hi : i' = t.rootID := hid'.symm.trans (hid.trans ht.symm)
    rw [← ht, hi] at hm'
    rw [descend_self hm']
    rfl
  · have hi : i = t.rootID := hid.symm.trans (hid'.trans ht.symm)
    rw [← ht, hi] at hm
    rw [descend_self hm]
    rfl
  · have hi : i = i' := hid.symm.trans hid'
    cases hkr.symm.trans hkr'
    rw [← ht, hi] at hm
    rw [← ht] at hm'
    rw [Tree.descend_injective hm hm']

/-- A walk is settled when every link on it is registered only on the way to its place. -/
theorem resolveWrites_settled (hw : w.Serves t.toServer) (ht : t.rootID = s.rootID) {p : Path}
    (hp : s.resolved (absolute p) = none)
    (h : ∀ id q r, OnWalk C t s p id q → s.pathLinks.lookup r = some id → OnWay q r) :
    Settled s.pathLinks (resolveWrites C w s p) := by
  constructor
  · intro id q r hq hr
    exact (resolveWrites_onWalk hw ht hp hq).1.unique ht (resolveWrites_onWalk hw ht hp hr).1
  · intro id q r hq hr
    obtain ⟨hon, hway⟩ := resolveWrites_onWalk hw ht hp hq
    exact hway r (h id q r hon hr)

theorem settled_none (left : KeyMap Path LinkID) : Settled left .none :=
  ⟨(by cases ·), (by cases ·)⟩

theorem resolveWrites_resolved {p : Path} (h : (s.resolved (absolute p)).isSome) :
    resolveWrites C w s p = .none := by
  obtain ⟨n, hn⟩ := Option.isSome_iff_exists.mp h
  simp only [resolveWrites, hn]

theorem callWrites_settled (hw : w.Serves t.toServer) (ht : t.rootID = s.rootID) (c : Call)
    (h : ∀ p id q r, walked w s c = some p → OnWalk C t s p id q →
      s.pathLinks.lookup r = some id → OnWay q r) :
    Settled s.pathLinks (callWrites C w s c) := by
  have hnone := settled_none s.pathLinks
  cases c with
  | resolvePath p =>
    simp only [walked] at h
    simp only [callWrites]
    by_cases hr : (s.resolved (absolute p)).isSome
    · rw [resolveWrites_resolved hr]
      exact hnone
    · simp only [hr, Bool.false_eq_true, if_false] at h
      exact resolveWrites_settled hw ht (Option.not_isSome_iff_eq_none.mp hr) (h p · · · rfl)
  | listChildren p =>
    simp only [walked] at h
    simp only [callWrites]
    split_ifs with hc
    · exact hnone
    by_cases hr : (s.resolved (absolute p)).isSome
    · rw [resolveWrites_resolved (s := s.tick) hr]
      exact hnone
    · simp only [hc, hr, Bool.false_eq_true, or_self, if_false] at h
      exact resolveWrites_settled (s := s.tick) hw ht (Option.not_isSome_iff_eq_none.mp hr)
        (h p · · · rfl)
  | stat p =>
    simp only [walked] at h
    simp only [callWrites]
    split_ifs with hc
    · exact hnone
    obtain ⟨hcached, hroot⟩ := not_or.mp hc
    by_cases hr : (s.resolved (absolute (dir (absolute p)))).isSome
    · rw [resolveWrites_resolved (s := s.tick) hr]
      exact hnone
    · simp only [hcached, hroot, hr, Bool.false_eq_true, or_self, if_false] at h
      exact resolveWrites_settled (s := s.tick) hw ht (Option.not_isSome_iff_eq_none.mp hr)
        (h _ · · · rfl)
  | invalidatePath p => exact hnone
  | invalidateLinkID id => exact hnone
  | invalidateAll => exact hnone

end Walks

section Events

variable {le : LinkEvent} {s₁ : Session KR}

/-- The bindings of a diff are those of the server's listing; without failures it is made
whenever it can be. -/
theorem diffBindings_compared (hw : w.Serves t.toServer) (hk : s₁.nodeKRs = s.nodeKRs) {d : Path}
    {id : LinkID} {x : Option (List (LinkID × Path))}
    (hx : diffBindings C w d id (s.metaCache.getListStale d) s₁ = x) :
    (∀ bs, x = some bs → ∃ r, compared t.toServer s d id = some r ∧
      bs = listingBindings C d r.1.kr r.2) ∧
    (x = none → w.Reliable → compared t.toServer s d id = none) := by
  have hdiff : diffable d id (s.metaCache.getListStale d) s₁ =
      diffable d id (s.metaCache.getListStale d) s := by
    simp only [diffable]
    rw [hk]
  subst hx
  simp only [diffBindings, compared, comparison, hdiff, World.answer, hw s₁.ticks]
  cases diffable d id (s.metaCache.getListStale d) s with
  | none => simp
  | some r =>
    rw [Option.bind_some, Option.map_some, Option.bind_some]
    constructor
    · intro bs hbs
      obtain ⟨ls, hls, rfl⟩ := Option.map_eq_some_iff.mp hbs
      split_ifs at hls
      exact ⟨(⟨d, id, r.1, r.2⟩, ls), by rw [hls, Option.map_some], rfl⟩
    · intro hnone hr
      rw [if_pos (hr _)] at hnone
      rw [Option.map_eq_none_iff.mp hnone, Option.map_none]

/-- Without failures in between, the name a link is announced under is the one on the server. -/
theorem createdAs_of_announcedName (hw : w.Serves t.toServer) (hk : s₁.nodeKRs = s.nodeKRs)
    {link : Link} {n : Path}
    (h : announcedName C w link (s.linkPath link.parentLinkID) s₁ = some n) :
    createdAs C t.toServer s link = some n := by
  simp only [announcedName, createdAs] at h ⊢
  split_ifs at h ⊢
  rw [hk] at h
  obtain ⟨kr, hkr, hn⟩ := Option.bind_eq_some_iff.mp h
  rw [hkr, Option.bind_some]
  obtain ⟨hname, hne⟩ := Option.filter_eq_some_iff.mp hn
  refine Option.filter_eq_some_iff.mpr ⟨?_, hne⟩
  simp only [createdName] at hname
  cases hg : C.getName link kr with
  | some m =>
    rw [hg] at hname
    exact hname
  | none =>
    rw [hg] at hname
    rcases Session.callAPI_cases w s₁ (fun srv => srv.link link.linkID) with
      ⟨l, -, hl, hc⟩ | ⟨e, -, hc⟩
    · rw [hw] at hl
      rw [hc] at hname
      rw [Option.none_or, hl]
      exact hname
    · rw [hc] at hname
      cases hname

theorem dropped_nodeKRs : (dropped w s le).nodeKRs = s.nodeKRs := by
  have hblocks : ∀ (id : LinkID) (s : Session KR), ((dropBlocks id s).getD s).nodeKRs = s.nodeKRs :=
    fun id s => by cases hb : s.blocks <;> simp [dropBlocks, hb]
  simp only [dropped]
  cases le.eventType with
  | create => exact (pruned_invalidateCreated le.link s).nodeKRs
  | delete => exact (hblocks _ _).trans (pruned_invalidateDeleted le.link s).nodeKRs
  | update | updateMetadata =>
    exact (hblocks _ _).trans (pruned_invalidateUpdated le.link s).nodeKRs

theorem announceCreated_nodeKRs (link : Link) (d : Path) (s : Session KR) :
    (announceCreated C w link d s).state.nodeKRs = s.nodeKRs := by
  have h := announceCreated_spec (C := C) (w := w) link d s
  rcases hrun : announceCreated C w link d s with ⟨e | evs, s₁⟩
  · rw [hrun] at h
    exact h.1.kept.nodeKRs
  · rw [hrun] at h
    obtain ⟨n, s₂, -, -, ht, -, rfl⟩ := h
    exact ht.kept.nodeKRs

theorem diffCached_nodeKRs (d : Path) (id : LinkID) (old : Option (List Link × KR))
    (s : Session KR) : (diffCached C w d id old s).state.nodeKRs = s.nodeKRs :=
  (Outcome.Sat.state (diffCached_kept d id old s)).nodeKRs

/-- An event binds nothing, the created link, or the listing of one directory. -/
theorem eventBindings_cases (hw : w.Serves t.toServer) :
    eventBindings C w s le = [] ∨
    (∃ n, eventBindings C w s le =
        [(le.link.linkID, child (s.linkPath le.link.parentLinkID) n)] ∧
      EventFinds C t w s le le.link.linkID (child (s.linkPath le.link.parentLinkID) n)) ∨
    ∃ dirID r, compared t.toServer s (s.linkPath dirID) dirID = some r ∧
      eventBindings C w s le = listingBindings C (s.linkPath dirID) r.1.kr r.2 ∧
      ∀ id q, InListing C t s dirID id q → EventFinds C t w s le id q := by
  have hkr := @dropped_nodeKRs KR w s le
  simp only [eventBindings, EventFinds]
  cases le.eventType with
  | delete => exact .inl rfl
  | create =>
    dsimp only
    cases ha : announcedName C w le.link (s.linkPath le.link.parentLinkID) (dropped w s le) with
    | some n =>
      refine .inr (.inl ⟨n, rfl, ?_⟩)
      rw [createdAs_of_announcedName hw hkr ha]
      exact .inl ⟨trivial, rfl⟩
    | none =>
      have hlast := (announceCreated_nodeKRs (C := C) (w := w) le.link
        (s.linkPath le.link.parentLinkID) (dropped w s le)).trans hkr
      cases hd : diffBindings C w (s.linkPath le.link.parentLinkID) le.link.parentLinkID
          (s.metaCache.getListStale (s.linkPath le.link.parentLinkID))
          (announceCreated C w le.link (s.linkPath le.link.parentLinkID)
            (dropped w s le)).state with
      | none => exact .inl rfl
      | some bs =>
        obtain ⟨r, hr, rfl⟩ := (diffBindings_compared hw hlast hd).1 bs rfl
        refine .inr (.inr ⟨le.link.parentLinkID, r, hr, rfl, fun id q hin => ?_⟩)
        cases hcreated : createdAs C t.toServer s le.link with
        | none => exact hin
        | some n =>
          -- the server knows the name, so the call for it has failed
          refine .inr ⟨fun hrel => ?_, hin⟩
          have hsame := announcedName_serves (C := C) hw hrel hkr le.link
          cases (ha.symm.trans hsame).trans hcreated
  | update | updateMetadata =>
    dsimp only
    have hlast := (diffCached_nodeKRs (C := C) (w := w) (s.linkPath le.link.linkID) le.link.linkID
      (s.metaCache.getListStale (s.linkPath le.link.linkID)) (dropped w s le)).trans hkr
    cases hown : diffBindings C w (s.linkPath le.link.linkID) le.link.linkID
        (s.metaCache.getListStale (s.linkPath le.link.linkID)) (dropped w s le) with
    | some bs =>
      obtain ⟨r, hr, rfl⟩ := (diffBindings_compared hw hkr hown).1 bs rfl
      exact .inr (.inr ⟨le.link.linkID, r, hr, rfl, fun id q hin => .inl hin⟩)
    | none =>
      rw [Option.none_or]
      cases hd : diffBindings C w (s.linkPath le.link.parentLinkID) le.link.parentLinkID
          (s.metaCache.getListStale (s.linkPath le.link.parentLinkID))
          (diffCached C w (s.linkPath le.link.linkID) le.link.linkID
            (s.metaCache.getListStale (s.linkPath le.link.linkID)) (dropped w s le)).state with
      | none => exact .inl rfl
      | some bs =>
        obtain ⟨r, hr, rfl⟩ := (diffBindings_compared hw hlast hd).1 bs rfl
        exact .inr (.inr ⟨le.link.parentLinkID, r, hr, rfl, fun id q hin =>
          .inr ⟨(diffBindings_compared hw hkr hown).2 rfl, hin⟩⟩)

theorem mem_listingBindings {d : Path} {kr : KR} {ls : List Link} {b : LinkID × Path} :
    b ∈ listingBindings C d kr ls ↔
      ∃ l n, l ∈ ls ∧ C.getName l kr = some n ∧ b = (l.linkID, child d n) := by
  simp only [listingBindings, List.mem_filterMap, Option.map_eq_some_iff]
  constructor
  · rintro ⟨l, hl, n, hn, rfl⟩
    exact ⟨l, n, hl, hn, rfl⟩
  · rintro ⟨l, n, hl, hn, rfl⟩
    exact ⟨l, hl, n, hn, rfl⟩

theorem compared_children {d : Path} {id : LinkID} {r : Comparison KR × List Link}
    (h : compared t.toServer s d id = some r) : t.children id = some r.2 := by
  obtain ⟨c, -, hr⟩ := Option.bind_eq_some_iff.mp h
  obtain ⟨ls, hls, rfl⟩ := Option.map_eq_some_iff.mp hr
  exact hls

/-- An event is settled when every link it finds is registered only there or where it clears. -/
theorem eventBindings_settled (hw : w.Serves t.toServer)
    (h : ∀ id q r, EventFinds C t w s le id q → s.pathLinks.lookup r = some id →
      r = q ∨ Cleared s le r) :
    Settled (dropped w s le).pathLinks ⟨eventBindings C w s le, []⟩ := by
  have hfresh : ∀ {id q r}, EventFinds C t w s le id q →
      (dropped w s le).pathLinks.lookup r = some id → r = q := by
    intro id q r hfind hr
    obtain ⟨hold, hnot⟩ := pathLinks_dropped hr
    exact (h id q r hfind hold).resolve_right hnot
  rcases @eventBindings_cases KR C t w s le hw with hb | ⟨n, hb, hfind⟩ |
    ⟨dirID, r, hr, hb, hfind⟩ <;> rw [hb]
  · exact settled_none _
  · constructor
    · intro id p q hp hq
      cases List.mem_singleton.mp hp
      cases List.mem_singleton.mp hq
      rfl
    · intro id p q hp hq
      cases List.mem_singleton.mp hp
      exact .inl (hfresh hfind hq)
  · have hls := compared_children hr
    constructor
    · intro id p q hp hq
      obtain ⟨l, m, hl, hm, hlp⟩ := mem_listingBindings.mp hp
      obtain ⟨l', m', hl', hm', hlq⟩ := mem_listingBindings.mp hq
      cases hlp
      obtain ⟨hid, rfl⟩ := Prod.mk.inj hlq
      cases t.link_unique hls hl hls hl' hid
      cases hm.symm.trans hm'
      rfl
    · intro id p q hp hq
      obtain ⟨l, m, hl, hm, hlp⟩ := mem_listingBindings.mp hp
      cases hlp
      exact .inl (hfresh (hfind _ _ ⟨r, l, m, hr, hl, hm, rfl, rfl⟩) hq)

end Events

section Runs

theorem advance_rootID {m : Moment} (h : advance C s m = some s') : s'.rootID = s.rootID := by
  simp only [advance, step] at h
  cases hop : m.op with
  | call c =>
    rw [hop] at h
    cases h
    exact (exec_keeps s c).1
  | event le =>
    rw [hop] at h
    obtain ⟨o, ho, rfl⟩ := Option.map_eq_some_iff.mp h
    exact (handle_keeps ho).1

/-- One step whose links are tracked keeps the maps inverse. -/
theorem advance_inverse {m : Moment} (h : Inverse s) (hroot : m.tree.rootID = s.rootID)
    (htr : Tracked C s m) (hs : advance C s m = some s') : Inverse s' := by
  refine step_inverse h ?_ hs
  simp only [Tracked] at htr
  cases hop : m.op with
  | call c =>
    rw [hop] at htr
    exact callWrites_settled m.serves hroot c htr
  | event le =>
    rw [hop] at htr
    exact eventBindings_settled m.serves htr

/-- The maps are inverse to each other, and a Delete or Update event leaves no path registered
for its link. -/
def GhostFree (C : Crypto KR) (s : Session KR) : Prop :=
  Inverse s ∧ ∀ w le o, le.eventType ≠ .create → handle C w le s = some o →
    ∀ p, o.state.pathLinks.lookup p ≠ some le.link.linkID

theorem ghostFree_of_inverse (h : Inverse s) : GhostFree C s :=
  ⟨h, fun _ _ _ hc ho p hp => dropped_unregistered h hc p (handle_left ho hp)⟩

/-- In every run from a new session whose steps find every link where it is tracked, the maps
are inverse in every state, and no path resolves to the link of a Delete or Update event once
it has been handled. -/
theorem tracked_runs_inverse (C : Crypto KR) (rootID : LinkID) (blocks : Option BlockCache.Cache)
    (ms : List Moment) (hroot : ∀ m ∈ ms, m.tree.rootID = rootID)
    (h : Along (advance C) (Tracked C) (newSession rootID blocks) ms) :
    Always (advance C) (GhostFree C) (newSession rootID blocks) ms := by
  have hboth := h.and (along_of_forall (Q := fun _ m => m.tree.rootID = rootID)
    fun m hm _ => hroot m hm)
  refine always_of_along (I := fun s => Inverse s ∧ s.rootID = rootID)
    (fun _ hi => ghostFree_of_inverse hi.1) ?_ ⟨(fun _ _ hp => by cases hp), rfl⟩ hboth
  rintro s m s' ⟨hinv, hid⟩ ⟨htr, hm⟩ hs
  exact ⟨advance_inverse hinv (hm.trans hid.symm) htr hs, (advance_rootID hs).trans hid⟩

/-- A server that holds these links, when their ids are unique and the root is no child. -/
def treeOf (rootID : LinkID) (links : List Link)
    (hroot : ∀ l ∈ links, l.linkID = rootID → ∀ d ∈ links, d.linkID ≠ l.parentLinkID)
    (hunique : ∀ l ∈ links, ∀ l' ∈ links, l.linkID = l'.linkID → l = l') : Tree where
  toServer := serverOf links
  rootID := rootID
  parent_of_child := by
    intro d ls l h hl
    obtain ⟨f, -, rfl⟩ := Option.map_eq_some_iff.mp h
    exact (of_decide_eq_true (List.mem_filter.mp hl).2).1
  root_not_child := by
    intro d ls l h hl hid
    obtain ⟨f, hf, rfl⟩ := Option.map_eq_some_iff.mp h
    have hfind := (Option.filter_eq_some_iff.mp hf).1
    obtain ⟨hmem, hparent⟩ := List.mem_filter.mp hl
    apply hroot l hmem hid f (List.mem_of_find?_eq_some hfind)
    have hfd : f.linkID = d := by simpa using List.find?_some hfind
    exact hfd.trans (of_decide_eq_true hparent).1.symm
  link_unique := by
    intro d ls l d' ls' l' h hl h' hl' hid
    obtain ⟨f, -, rfl⟩ := Option.map_eq_some_iff.mp h
    obtain ⟨f', -, rfl⟩ := Option.map_eq_some_iff.mp h'
    exact hunique l (List.mem_filter.mp hl).1 l' (List.mem_filter.mp hl').1 hid

/-- Two folders below the root, and a third below one of them. -/
def folders (parent : LinkID) (name : String) : List Link :=
  [plainFolder "root" "" "", plainFolder "A" "root" "a", plainFolder "B" "root" "b",
    plainFolder "X" parent name]

def folderTree : Tree := treeOf "root" (folders "A" "x") (by decide) (by decide)

def movedTree : Tree := treeOf "root" (folders "B" "x") (by decide) (by decide)

def renamedTree : Tree := treeOf "root" (folders "A" "y") (by decide) (by decide)

def Moment.steady (t : Tree) (op : Op) : Moment := ⟨t, World.steady t.toServer, fun _ => rfl, op⟩

/-- The folder is resolved, moved and resolved again before the event of the move arrives. -/
def lateEvent : List Moment :=
  [.steady folderTree (.call (.resolvePath "/a/x".toList)),
    .steady movedTree (.call (.resolvePath "/b/x".toList)),
    .steady movedTree (.event ⟨.updateMetadata, plainFolder "X" "B" "x"⟩)]

/-- The old path of the folder stays registered, also after the event of the move. -/
theorem tracked_runs_inverse_fails :
    ¬Always (advance Crypto.plain) (GhostFree Crypto.plain)
      (newSession "root" (some ⟨0, 0, ∅⟩)) lateEvent ∧
    ∃ s : Session Unit,
      lateEvent.foldlM (advance Crypto.plain) (newSession "root" (some ⟨0, 0, ∅⟩)) = some s ∧
      s.pathLinks.lookup "/a/x".toList = some "X" ∧
      s.linkPaths.lookup "X" = some "/b/x".toList := by
  refine ⟨fun h => ?_, _, rfl, rfl, rfl⟩
  have hx := (h.last rfl).1 "/a/x".toList "X" rfl
  revert hx
  decide

/-- The folder is renamed, and its event handled before the new path is resolved. -/
def timelyEvent : List Moment :=
  [.steady folderTree (.call (.resolvePath "/a/x".toList)),
    .steady renamedTree (.event ⟨.updateMetadata, plainFolder "X" "A" "y"⟩),
    .steady renamedTree (.call (.resolvePath "/a/y".toList))]

/-- The session after the first step. -/
def atFolder : Session Unit :=
  ((newSession "root" (some ⟨0, 0, ∅⟩)).resolvePath Crypto.plain
    (World.steady folderTree.toServer) "/a/x".toList).state

theorem atFolder_registered {r : Path} {id : LinkID} (h : atFolder.pathLinks.lookup r = some id) :
    (r = ['/'] ∧ id = "root") ∨ (r = "/a".toList ∧ id = "A") ∨ (r = "/a/x".toList ∧ id = "X") := by
  have hl : atFolder.pathLinks.lookup r = if r = "/a/x".toList then some "X" else
      if r = "/a".toList then some "A" else if r = ['/'] then some "root" else none :=
    (lookup_insert_ite _ _ _ _).trans (congrArg _ ((lookup_insert_ite _ _ _ _).trans
      (congrArg _ (lookup_insert_ite _ _ _ _))))
  rw [hl] at h
  split_ifs at h with hx ha hr <;> cases h
  · exact .inr (.inr ⟨hx, rfl⟩)
  · exact .inr (.inl ⟨ha, rfl⟩)
  · exact .inl ⟨hr, rfl⟩

/-- A folder that is renamed keeps one path when its event comes first. -/
theorem tracked_runs_inverse_renamed :
    Always (advance Crypto.plain) (GhostFree Crypto.plain)
      (newSession "root" (some ⟨0, 0, ∅⟩)) timelyEvent := by
  refine tracked_runs_inverse Crypto.plain "root" _ timelyEvent (by decide) ⟨?_, ?_⟩
  · intro p id q r _ _ hr
    cases hr
  intro s₁ hs₁
  obtain rfl : atFolder = s₁ := Option.some.inj hs₁
  refine ⟨?_, ?_⟩
  · intro id q r hfind hr
    have hid : id = "X" := by
      rcases hfind with ⟨c, l, n, hc, -⟩ | ⟨-, c, l, n, hc, hl, -, rfl, -⟩
      · cases hc
      · obtain rfl := Option.some.inj hc
        cases List.mem_singleton.mp hl
        rfl
    subst hid
    rcases atFolder_registered hr with ⟨-, h⟩ | ⟨-, h⟩ | ⟨rfl, -⟩
    · exact absurd h (by decide)
    · exact absurd h (by decide)
    · exact .inr (.inl (by decide))
  intro s₂ hs₂
  have hevent : (handle Crypto.plain (World.steady renamedTree.toServer)
      ⟨.updateMetadata, plainFolder "X" "A" "y"⟩ atFolder).map (fun o => o.state) = some s₂ := hs₂
  obtain ⟨o, ho, rfl⟩ := Option.map_eq_some_iff.mp hevent
  refine ⟨?_, fun _ _ => trivial⟩
  intro p id q r _ _ hr
  -- the event has cleared everything below the root
  obtain ⟨hold, hkept⟩ := pathLinks_dropped (handle_left ho hr)
  rcases atFolder_registered hold with ⟨rfl, -⟩ | ⟨rfl, -⟩ | ⟨rfl, -⟩
  · exact ⟨[], List.nil_prefix, rfl⟩
  · exact absurd (.inr ⟨by decide, by decide⟩) hkept
  · exact absurd (.inl (by decide)) hkept

end Runs

end ProtonDrive.TrackedMaps
