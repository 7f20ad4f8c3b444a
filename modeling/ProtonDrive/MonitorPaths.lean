import ProtonDrive.ChangeMonitors
import ProtonDrive.PathInvalidation

/-!
# Which monitors are told about a path

`emit_on_monitors` compares the path of a monitor with that of an event as strings: a prefix, and
a slash at the place where it ends. Between clean paths this is the relation of a directory to
all that lies below it, however deep.
-/

namespace ProtonDrive.MonitorPaths
open SlashPaths ChangeMonitors PathInvalidation

section Paths

variable {p f : Path}

/-- The direct parent directory; the root is the parent of the top-level entries. -/
def IsParent (d f : Path) : Prop := ∃ name, IsComponent name ∧ f = child d name

theorem prefix_concat_iff {α : Type} {l m : List α} {c : α} :
    l ++ [c] <+: m ↔ l <+: m ∧ m[l.length]? = some c := by
  constructor
  · rintro ⟨t, rfl⟩
    exact ⟨⟨c :: t, by simp⟩, by simp⟩
  · rintro ⟨⟨t, rfl⟩, hc⟩
    cases t with
    | nil => simp at hc
    | cons a t =>
      obtain rfl : a = c := by simpa using hc
      exact ⟨t, by simp⟩

/-- Of the clean paths only the root ends with a slash. -/
theorem getLast?_eq_slash_iff (hp : IsAbsolute p) :
    p.getLast? = some '/' ↔ p = ['/'] := by
  rcases hp.cases with rfl | ⟨es, e, he, hc, rfl⟩
  · exact iff_of_true rfl rfl
  · have hlast : (render (es ++ [e])).getLast? = e.getLast? := by
      rw [render_concat, List.getLast?_append, List.getLast?_cons]
      cases h : e.getLast? with
      | none => exact absurd (List.getLast?_eq_none_iff.mp h) hc.nonempty
      | some c => rfl
    refine iff_of_false (fun h => hc.noSlash ?_) (fun h => ?_)
    · rw [hlast] at h
      exact List.mem_of_getLast? h
    · simpa using (render_eq_root_iff (components_concat he hc)).mp h

/-- A monitor watches its own path and all that lies below it. -/
theorem watches_iff (hp : IsAbsolute p) (hf : IsAbsolute f) :
    watches p f = true ↔ p = f ∨ StrictlyBelow p f := by
  have hwatches : watches p f = true ↔
      p = f ∨ p <+: f ∧ (p = ['/'] ∨ p ++ ['/'] <+: f) := by
    simp only [watches, Bool.or_eq_true, Bool.and_eq_true, beq_iff_eq,
      List.isPrefixOf_iff_prefix, getLast?_eq_slash_iff hp]
    rw [prefix_concat_iff]
    exact or_congr_right (and_congr_right fun hfront => by simp [hfront])
  rw [hwatches, StrictlyBelow, List.isPrefixOf_iff_prefix]
  split_ifs with hroot
  · subst hroot
    have hslash : f.head? = some '/' := by
      obtain ⟨fs, -, rfl⟩ := hf
      cases fs <;> simp [render]
    have hfront : ['/'] <+: f := by
      cases f with
      | nil => cases hslash
      | cons c cs =>
        obtain rfl : c = '/' := by simpa using hslash
        exact ⟨cs, rfl⟩
    simp only [hfront, hslash, true_and, true_or, or_true, true_iff]
    exact (eq_or_ne f ['/']).imp_left Eq.symm
  · refine or_congr_right ⟨fun h => h.2.resolve_left hroot, fun h => ⟨?_, .inr h⟩⟩
    exact (List.prefix_append p ['/']).trans h

theorem ne_of_strictlyBelow (h : StrictlyBelow p f) : p ≠ f := by
  rintro rfl
  rw [StrictlyBelow] at h
  split_ifs at h
  · exact h.2 rfl
  · have hlen := (List.isPrefixOf_iff_prefix.mp h).length_le
    simp at hlen

theorem IsParent.strictlyBelow (hp : IsAbsolute p) (h : IsParent p f) : StrictlyBelow p f := by
  obtain ⟨es, he, rfl⟩ := hp
  obtain ⟨name, hn, rfl⟩ := h
  rw [child_render he, strictlyBelow_render he (components_concat he hn)]
  exact ⟨name, [], rfl⟩

end Paths

section Emissions

/-- How many of the events are for the monitor with address `g`. -/
def received (g : ℕ) (emissions : List Emission) : ℕ := emissions.countP (·.monitor = g)

/-- Each live monitor of the path itself or of its parent directory gets the event exactly once,
no other monitor gets any. -/
structure ExactlyConcerned (ms : Monitors) (eventType : FileMonitorEvent) (f : Path) : Prop where
  concerned : ∀ entry ∈ ms.entries, ∀ g, entry.monitor = some g →
    entry.path = f ∨ IsParent entry.path f →
    received g (emitOnMonitors ms.entries eventType (some f)) = 1
  others : ∀ entry ∈ ms.entries, ∀ g, entry.monitor = some g →
    ¬ (entry.path = f ∨ IsParent entry.path f) →
    received g (emitOnMonitors ms.entries eventType (some f)) = 0
  emitted : ∀ em ∈ emitOnMonitors ms.entries eventType (some f),
    em.event = eventType ∧ em.file = f ∧ ∃ entry ∈ ms.entries, entry.monitor = some em.monitor

theorem map_monitor_sublist (entries : List ProtonMonitorEntry) (eventType : FileMonitorEvent)
    (f : Path) : ((emitOnMonitors entries eventType (some f)).map (·.monitor)).Sublist
      (entries.filterMap (·.monitor)) := by
  rw [emitOnMonitors, List.map_filterMap]
  induction entries with
  | nil => exact .slnil
  | cons e es ih =>
    cases hg : e.monitor with
    | none => simpa [hg] using ih
    | some g =>
      by_cases hw : watches e.path f = true
      · simpa [hg, hw] using ih
      · simpa [hg, hw] using ih.cons g

/-- A live monitor gets the event once if it watches the path, else not at all. -/
theorem received_eq (ms : Monitors) (eventType : FileMonitorEvent) (f : Path)
    {entry : ProtonMonitorEntry} (he : entry ∈ ms.entries) {g : ℕ} (hg : entry.monitor = some g) :
    received g (emitOnMonitors ms.entries eventType (some f)) =
      if watches entry.path f then 1 else 0 := by
  have hnodup := ms.distinct.sublist (map_monitor_sublist ms.entries eventType f)
  have hcount : received g (emitOnMonitors ms.entries eventType (some f)) =
      ((emitOnMonitors ms.entries eventType (some f)).map (·.monitor)).count g := by
    rw [received, List.count_eq_countP, List.countP_map]
    exact List.countP_congr fun em _ => by simp
  rw [hcount, hnodup.count]
  refine if_congr ?_ rfl rfl
  rw [← delivered_path_iff ms eventType f he hg]
  simp [Delivered]

/-- The right monitors are told exactly when no live monitor watches a directory further up than
the parent of the path. -/
theorem exactlyConcerned_iff (ms : Monitors) (habs : ∀ entry ∈ ms.entries, IsAbsolute entry.path)
    (eventType : FileMonitorEvent) {f : Path} (hf : IsAbsolute f) :
    ExactlyConcerned ms eventType f ↔ ∀ entry ∈ ms.entries, entry.monitor.isSome →
      StrictlyBelow entry.path f → IsParent entry.path f := by
  constructor
  · intro h entry he hlive hbelow
    obtain ⟨g, hg⟩ := Option.isSome_iff_exists.mp hlive
    by_contra hparent
    have hone := received_eq ms eventType f he hg
    rw [if_pos ((watches_iff (habs entry he) hf).mpr (.inr hbelow))] at hone
    have hzero := h.others entry he g hg (not_or.mpr ⟨ne_of_strictlyBelow hbelow, hparent⟩)
    omega
  · intro h
    refine ⟨fun entry he g hg hc => ?_, fun entry he g hg hc => ?_, fun em hem => ?_⟩
    · rw [received_eq ms eventType f he hg, if_pos]
      refine (watches_iff (habs entry he) hf).mpr (hc.imp_right fun hp => ?_)
      exact hp.strictlyBelow (habs entry he)
    · rw [received_eq ms eventType f he hg, if_neg]
      rw [watches_iff (habs entry he) hf]
      refine fun hw => hc (hw.imp_right ?_)
      exact h entry he (by rw [hg]; rfl)
    · obtain ⟨entry, he, hem⟩ := List.mem_filterMap.mp hem
      obtain ⟨g, hg, hem⟩ := Option.bind_eq_some_iff.mp hem
      obtain ⟨-, hem⟩ := Option.ite_none_right_eq_some.mp hem
      obtain rfl := Option.some.inj hem
      exact ⟨rfl, rfl, entry, he, hg⟩

/-- A folder, its namesake with a longer name, and a finalised monitor of the root. -/
theorem exactlyConcerned_parentFolder :
    let ms : Monitors := ⟨[⟨"/a/b".toList, some 1⟩, ⟨"/a/bc".toList, some 2⟩, ⟨['/'], none⟩],
      by simp, by simp⟩
    ExactlyConcerned ms .created "/a/b/c".toList := by
  intro ms
  have hf : IsAbsolute "/a/b/c".toList := ⟨[['a'], ['b'], ['c']], by decide, rfl⟩
  have habs : ∀ entry ∈ ms.entries, IsAbsolute entry.path := by
    simp only [ms, List.forall_mem_cons, List.not_mem_nil, false_implies, implies_true, and_true]
    exact ⟨⟨[['a'], ['b']], by decide, rfl⟩, ⟨[['a'], ['b', 'c']], by decide, rfl⟩,
      isAbsolute_root⟩
  refine (exactlyConcerned_iff ms habs .created hf).mpr ?_
  simp only [ms, List.forall_mem_cons, List.not_mem_nil, false_implies, implies_true, and_true]
  refine ⟨fun _ _ => ⟨['c'], by decide, by decide⟩, fun _ hbelow => ?_, by simp⟩
  exact absurd hbelow (by decide)

/-- A monitor on the root is told of a file two levels below. -/
theorem exactlyConcerned_fails : ¬ ∀ (ms : Monitors) (eventType : FileMonitorEvent) (f : Path),
    (∀ entry ∈ ms.entries, IsAbsolute entry.path) → IsAbsolute f →
    ExactlyConcerned ms eventType f := by
  intro h
  let ms : Monitors := ⟨[⟨['/'], some 1⟩], by simp, by simp⟩
  have hf : IsAbsolute "/a/b".toList := ⟨[['a'], ['b']], by decide, rfl⟩
  have hroot : ∀ entry ∈ ms.entries, IsAbsolute entry.path :=
    List.forall_mem_singleton.mpr isAbsolute_root
  have hparent : ¬ IsParent ['/'] "/a/b".toList := by
    rintro ⟨name, hn, hf⟩
    obtain rfl : name = "a/b".toList := by simpa [child, trimRightSlash] using hf.symm
    exact absurd hn (by decide)
  have hzero := (h ms .created _ hroot hf).others ⟨['/'], some 1⟩ List.mem_cons_self 1 rfl
    (not_or.mpr ⟨by decide, hparent⟩)
  exact absurd hzero (by decide)

end Emissions

end ProtonDrive.MonitorPaths
