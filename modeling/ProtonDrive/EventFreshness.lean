import ProtonDrive.EventPoller

/-!
# What an event leaves in the stat cache

Which stat entries from before an event survive its handling. The invalidations remove exactly
the recorded paths and, where none is recorded, what one scan by the parent's id meets.
-/

namespace ProtonDrive.EventFreshness
open SlashPaths KeyedMaps FallibleSteps DriveApi DriveSession EventPoller

variable {KR : Type} {C : Crypto KR} {w : World} {le : LinkEvent} {s : Session KR}
  {o : Attempt KR}

section Stats

/-- The paths at which the handling of an event removes stat entries of the event's link. -/
def Reached (w : World) (s : Session KR) (le : LinkEvent) (q : Path) : Prop :=
  (q ≠ [] ∧ q = s.linkPath le.link.linkID) ∨
  (q ≠ [] ∧ le.eventType ≠ .delete ∧ q = s.linkPath le.link.parentLinkID) ∨
  (s.linkPath le.link.linkID = [] ∧ le.link.parentLinkID = le.link.linkID ∧
    scanned w s le.link.linkID = some q)

/-- The fate of a stat entry of the event's link. -/
theorem stat_entry_iff (hc : le.eventType ≠ .create) (h : handle C w le s = some o) {q : Path}
    {e : MetaCache.StatEntry KR} (he : s.metaCache.stats.lookup q = some e)
    (hl : e.link.linkID = le.link.linkID) :
    o.state.metaCache.stats.lookup q = some e ↔ ¬Reached w s le q := by
  -- a scan by the parent's id stops at this entry only when the link is its own parent
  have hscan : ∀ c : MetaCache.Cache KR, c.Below s.metaCache →
      c.linkEntry (w.statOrder s.ticks) le.link.parentLinkID = some q →
      le.link.parentLinkID = le.link.linkID := by
    intro c hb hk
    obtain ⟨x, hx, hid⟩ := MetaCache.Cache.linkEntry_some hk
    cases (hb.stats q x hx).symm.trans he
    exact hid.symm.trans hl
  rcases handle_cases h with ⟨hcr, -⟩ | ⟨hd, s₁, hs, rfl⟩ | ⟨⟨-, hd⟩, s₁, hs, rfl⟩
  · exact absurd hcr hc
  · obtain ⟨bc, -, rfl⟩ := dropBlocks_eq_some hs
    rw [announceDelete_kept]
    change (invalidateDeleted w le.link s).metaCache.stats.lookup q = some e ↔ _
    have hp := hscan s.metaCache (.refl _)
    rw [stats_invalidateDeleted, he]
    simp only [Reached, scanned] at *
    grind
  · obtain ⟨bc, -, rfl⟩ := dropBlocks_eq_some hs
    rw [(announceUpdate_kept ..).stats]
    change (invalidateUpdated w le.link s).metaCache.stats.lookup q = some e ↔ _
    have hp := hscan _ (s.metaCache.invalidatePath_below (s.linkPath le.link.parentLinkID))
    have hroot : s.metaCache.invalidatePath [] = s.metaCache := rfl
    rw [stats_invalidateUpdated, he]
    simp only [Reached, scanned] at *
    grind

/-- No stat of the link from before the event survives, exactly when all of them lie at
paths the handling reaches. -/
theorem stale_stats_dropped_iff (hc : le.eventType ≠ .create) (h : handle C w le s = some o) :
    (∀ q e, s.metaCache.stats.lookup q = some e → o.state.metaCache.stats.lookup q = some e →
      e.link.linkID ≠ le.link.linkID) ↔
    ∀ q e, s.metaCache.stats.lookup q = some e → e.link.linkID = le.link.linkID →
      Reached w s le q := by
  constructor
  · intro hno q e he hl
    by_contra hr
    exact hno q e he ((stat_entry_iff hc h he hl).mpr hr) hl
  · intro hall q e he he' hl
    exact (stat_entry_iff hc h he hl).mp he' (hall q e he hl)

/-- A file "f" below the root, and a session that has answered a stat of it. -/
def oneFile : Server := serverOf [plainFolder "root" "" "", plainFile "F" "root" "f" 0 "rev1"]

def afterStat : Session Unit :=
  ((newSession "root" (some ⟨0, 0, ∅⟩)).stat Crypto.plain (World.steady oneFile) "/f".toList).state

/-- A stat walks to the parent only, so the file's own path is not recorded: its deletion
leaves the stat in place. -/
theorem stale_stats_dropped_fails :
    ∃ o, handle Crypto.plain (World.steady oneFile) ⟨.delete, plainFile "F" "root" "f" 0 "rev1"⟩
        afterStat = some o ∧
      ¬∀ q e, afterStat.metaCache.stats.lookup q = some e →
        o.state.metaCache.stats.lookup q = some e → e.link.linkID ≠ "F" :=
  ⟨_, rfl, fun h => h "/f".toList ⟨plainFile "F" "root" "f" 0 "rev1", (), 0⟩ rfl rfl rfl⟩

/-- With the path of the file on record, nothing stale survives. -/
theorem stale_stats_dropped_recorded :
    ∃ o, handle Crypto.plain (World.steady oneFile) ⟨.delete, plainFile "F" "root" "f" 0 "rev1"⟩
        (afterStat.setLinkPath "F" "/f".toList) = some o ∧
      ∀ q e, afterStat.metaCache.stats.lookup q = some e →
        o.state.metaCache.stats.lookup q = some e → e.link.linkID ≠ "F" := by
  have h : handle Crypto.plain (World.steady oneFile)
      ⟨.delete, plainFile "F" "root" "f" 0 "rev1"⟩ (afterStat.setLinkPath "F" "/f".toList) =
      some _ := rfl
  refine ⟨_, h, (stale_stats_dropped_iff (by decide) h).mpr fun q e he _ => .inl ?_⟩
  have hs : (afterStat.setLinkPath "F" "/f".toList).metaCache.stats.lookup q =
      if q = "/f".toList then some ⟨plainFile "F" "root" "f" 0 "rev1", (), 0⟩ else none :=
    lookup_insert_ite _ _ _ _
  rw [hs] at he
  split_ifs at he with hq
  subst hq
  exact ⟨by decide, rfl⟩

end Stats

end ProtonDrive.EventFreshness
