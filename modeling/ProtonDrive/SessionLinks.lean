import ProtonDrive.DriveSession

/-!
# The links in the caches

What is true of every link that the API answers is true of every link that a session has cached,
and of the one that a stat finds.
-/

namespace ProtonDrive.SessionLinks
open SlashPaths KeyedMaps FallibleSteps DriveApi DriveSession DriveSession.Session

variable {KR : Type} {L : Link → Prop}

/-- The API answers with such links only. -/
structure Answers (L : Link → Prop) (w : World) : Prop where
  link : ∀ n id l, (w.server n).link id = some l → L l
  children : ∀ n id ls, (w.server n).children id = some ls → ∀ l ∈ ls, L l

/-- Only such links are cached. -/
structure Carries (L : Link → Prop) (c : MetaCache.Cache KR) : Prop where
  stats : ∀ p e, c.stats.lookup p = some e → L e.link
  lists : ∀ p e, c.lists.lookup p = some e → ∀ l ∈ e.links, L l

section Caches

variable {c d : MetaCache.Cache KR}

theorem carries_newMetaCache (ttl : ℤ) : Carries L (MetaCache.newMetaCache ttl : MetaCache.Cache KR)
    where
  stats _ _ h := by cases h
  lists _ _ h := by cases h

theorem Carries.below (h : Carries L d) (hb : c.Below d) : Carries L c where
  stats p e he := h.stats p e (hb.stats p e he)
  lists p e he := h.lists p e (hb.lists p e he)

theorem Carries.setStat (h : Carries L c) (now : ℤ) (p : Path) {l : Link} (kr : KR) (hl : L l) :
    Carries L (c.setStat now p l kr) where
  stats q e he := by
    rw [MetaCache.Cache.lookup_setStat] at he
    split_ifs at he
    · cases he
      exact hl
    · exact h.stats q e he
  lists := h.lists

theorem Carries.setList (h : Carries L c) (now : ℤ) (p : Path) {ls : List Link} (kr : KR)
    (hls : ∀ l ∈ ls, L l) : Carries L (c.setList now p ls kr) where
  stats := h.stats
  lists q e he := by
    rw [MetaCache.Cache.lookup_setList] at he
    split_ifs at he
    · cases he
      exact hls
    · exact h.lists q e he

theorem Carries.getStatStale (h : Carries L c) {p : Path} {r : Link × KR}
    (hr : c.getStatStale p = some r) : L r.1 := by
  obtain ⟨e, he, rfl⟩ := Option.map_eq_some_iff.mp hr
  exact h.stats p e he

theorem Carries.getListStale (h : Carries L c) {p : Path} {r : List Link × KR}
    (hr : c.getListStale p = some r) : ∀ l ∈ r.1, L l := by
  obtain ⟨e, he, rfl⟩ := Option.map_eq_some_iff.mp hr
  exact h.lists p e he

end Caches

section Calls

variable {α β : Type} {C : Crypto KR} {w : World} {s : Session KR}

/-- The step caches such links only, and what it returns is of this kind. -/
def Finds (L : Link → Prop) (good : α → Prop) (o : Step KR α) : Prop :=
  o.Sat (fun a s => good a ∧ Carries L s.metaCache) (fun _ s => Carries L s.metaCache)

theorem Finds.andThen {good : α → Prop} {good' : β → Prop} {o : Step KR α}
    {f : α → Session KR → Step KR β} (h : Finds L good o)
    (hf : ∀ a s, good a → Carries L s.metaCache → Finds L good' (f a s)) :
    Finds L good' (o.andThen f) :=
  Outcome.Sat.andThen h fun a s ha => hf a s ha.1 ha.2

theorem Finds.recover {good : α → Prop} {o : Step KR α} {g : GoError → Session KR → Step KR α}
    (h : Finds L good o) (hg : ∀ e s, Carries L s.metaCache → Finds L good (g e s)) :
    Finds L good (o.recover g) := Outcome.Sat.recover h hg

theorem callAPI_finds {answer : Server → Option α} {good : α → Prop}
    (hgood : ∀ n a, answer (w.server n) = some a → good a) (h : Carries L s.metaCache) :
    Finds L good (s.callAPI w answer) := by
  rcases Session.callAPI_cases w s answer with ⟨a, -, ha, hc⟩ | ⟨e, -, hc⟩
  · rw [hc]
    exact ⟨hgood _ a ha, h⟩
  · rw [hc]
    exact h

theorem callAPI_carries {answer : Server → Option α} (h : Carries L s.metaCache) :
    Finds L (fun _ => True) (s.callAPI w answer) := callAPI_finds (fun _ _ _ => trivial) h

theorem shareKeyRing_finds (h : Carries L s.metaCache) :
    Finds L (fun _ => True) (s.shareKeyRing C w) := by
  simp only [shareKeyRing]
  split
  · exact ⟨trivial, h⟩
  · refine (callAPI_carries h).andThen fun share s₁ _ h₁ => ?_
    split
    · exact h₁
    · exact ⟨trivial, h₁⟩

theorem rootNodeKeyRing_finds (h : Carries L s.metaCache) :
    Finds L (fun _ => True) (s.rootNodeKeyRing C w) := by
  simp only [rootNodeKeyRing]
  split
  · exact ⟨trivial, h⟩
  · refine (shareKeyRing_finds h).andThen fun shareKR s₁ _ h₁ => ?_
    refine (callAPI_carries h₁).andThen fun rootLink s₂ _ h₂ => ?_
    split
    · exact h₂
    · exact ⟨trivial, h₂⟩

theorem walkParts_finds (hw : Answers L w) (p : Path) (parts : List Path) (id : LinkID) (kr : KR)
    (q : Path) (h : Carries L s.metaCache) :
    Finds L (fun _ => True) (walkParts C w p parts id kr q s) := by
  induction parts generalizing id kr q s with
  | nil => exact ⟨trivial, h⟩
  | cons part parts ih =>
    unfold walkParts
    refine (callAPI_finds (fun n ls => hw.children n id ls) h).andThen fun children s₁ hls h₁ => ?_
    have h₂ : Carries L (setList w s₁ q children kr).metaCache := h₁.setList _ q kr hls
    dsimp only
    split
    · exact h₂
    · split
      · exact h₂
      · exact ih _ _ _ h₂

theorem resolvePath_finds (hw : Answers L w) (p : Path) (h : Carries L s.metaCache) :
    Finds L (fun _ => True) (s.resolvePath C w p) := by
  simp only [resolvePath]
  split
  · exact ⟨trivial, h⟩
  · exact (rootNodeKeyRing_finds (s := s.setLinkPath s.rootID ['/']) h).andThen
      fun kr s₁ _ h₁ => walkParts_finds hw _ _ _ _ _ h₁

theorem listChildren_finds (hw : Answers L w) (p : Path) (h : Carries L s.metaCache) :
    Finds L (fun r => ∀ l ∈ r.1, L l) (s.listChildren C w p) := by
  simp only [listChildren]
  split
  · rename_i r hr
    exact ⟨h.getListStale (MetaCache.Cache.getList_stale hr), h⟩
  · refine Finds.recover ?_ fun e s₁ h₁ => ?_
    · refine Finds.andThen (resolvePath_finds (s := s.tick) hw p h) fun node s₁ _ h₁ => ?_
      exact (callAPI_finds (fun n ls => hw.children n node.1 ls) h₁).andThen
        fun links s₂ hls h₂ => ⟨hls, h₂.setList _ p node.2 hls⟩
    · simp only [staleList]
      split
      · rename_i r _ hr
        exact ⟨h₁.getListStale hr, h₁⟩
      · exact h₁

theorem statUncached_finds (hw : Answers L w) (p : Path) (h : Carries L s.metaCache) :
    Finds L (fun r => L r.1) (s.statUncached C w p) := by
  simp only [statUncached]
  split
  · refine (callAPI_finds (fun n l => hw.link n s.rootID l) h).andThen fun link s₁ hl h₁ => ?_
    exact (rootNodeKeyRing_finds h₁).andThen fun kr s₂ _ h₂ => ⟨hl, h₂⟩
  · have hparent : Finds L (fun _ => True) (s.parentKRFor C w p) :=
      (resolvePath_finds hw _ h).andThen fun node s₁ _ h₁ => ⟨trivial, h₁⟩
    refine hparent.andThen fun parentKR s₁ _ h₁ => ?_
    refine (listChildren_finds hw _ h₁).andThen fun r s₂ hr h₂ => ?_
    split
    · rename_i l hl
      exact ⟨hr l (findChild_some hl).1, h₂⟩
    · exact h₂

/-- A stat finds a link that the API has answered, now or before. -/
theorem stat_finds (hw : Answers L w) (p : Path) (h : Carries L s.metaCache) :
    Finds L (fun r => L r.1) (s.stat C w p) := by
  simp only [Session.stat]
  split
  · rename_i r hr
    exact ⟨h.getStatStale (MetaCache.Cache.getStat_stale hr), h⟩
  · refine Finds.recover ?_ fun e s₁ h₁ => ?_
    · exact Finds.andThen (statUncached_finds (s := s.tick) hw _ h) fun r s₁ hr h₁ =>
        ⟨hr, h₁.setStat _ _ r.2 hr⟩
    · simp only [staleStat]
      split
      · rename_i r _ hr
        exact ⟨h₁.getStatStale hr, h₁⟩
      · exact h₁

end Calls

end ProtonDrive.SessionLinks
