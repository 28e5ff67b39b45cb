import OpenCms.Storage.Rescue

/-!
# Stores of the old layout

What the migrations start from: each session in a file under its project, the messages of a session
and the parts of a message in directories of their own, and no index. The second migration takes the
diffs out of the sessions. What it has taken out is not there when it is run again, so it can be
stopped anywhere.
-/

namespace OpenCms.Storage

variable {V : Type} [Record V]

/-- **A store of the old layout.** A session names its project and itself as its path does, and
stands under one project only; the names of sessions begin with `ses_`, and those of projects do
not. -/
structure Legacy (files : Files V) : Prop where
  distinct : files.Distinct
  session : ∀ rest, files.get (.session :: rest) ≠ none → ∃ p s v, rest = [p, s] ∧
    files.get [.session, p, s] = some (.data v) ∧ Document.projectID v = some p.1 ∧
    Record.id v = s ∧ isSes p = false ∧ isSes s = true
  alone : ∀ p p' s, files.get [.session, p, s] ≠ none → files.get [.session, p', s] ≠ none → p = p'
  message : ∀ s m, files.get [.message, s, m] ≠ none → isSes s = true
  index : ∀ rest, files.get (.index :: rest) = none

theorem truthy_name (name : Name) : truthy (some name.1) = some name.1 := by
  refine truthy_of_ne fun h => name.2.1 ?_
  rw [h]
  rfl

section Split

variable {files s t u : Files V} {item : Path} {p sid : Name} {v d : V}

omit [Record V] in
theorem eq_cons_of_mem_below (h : item ∈ s.below [.session]) : ∃ rest, item = .session :: rest := by
  obtain ⟨name, rest, rfl⟩ := Files.below_iff.mp (Files.mem_below.mp h).2
  exact ⟨_, rfl⟩

theorem Legacy.session_of_get (h : Legacy files) (hget : files.get [.session, p, sid] ≠ none) :
    ∃ v, files.get [.session, p, sid] = some (.data v) ∧ Document.projectID v = some p.1 ∧
      Record.id v = sid ∧ isSes p = false ∧ isSes sid = true := by
  obtain ⟨p', sid', v, heq, hv⟩ := h.session _ hget
  cases heq
  exact ⟨v, hv⟩

theorem Legacy.put_sessionDiff (h : Legacy files) :
    Legacy (files.put [.sessionDiff, sid] (.data d)) := by
  have hget : ∀ domain rest, domain ≠ .sessionDiff →
      (files.put [.sessionDiff, sid] (.data d)).get (domain :: rest) =
        files.get (domain :: rest) := by
    intro domain rest hdomain
    rw [Files.get_put, if_neg fun heq => hdomain (List.cons.inj heq).1]
  have hsession : Name.session ≠ .sessionDiff := by decide
  have hmessage : Name.message ≠ .sessionDiff := by decide
  have hindex : Name.index ≠ .sessionDiff := by decide
  refine ⟨h.distinct.put, fun rest hrest => ?_, fun p p' s hp hp' => ?_, fun s m hm => ?_,
    fun rest => ?_⟩
  · rw [hget _ _ hsession] at hrest
    obtain ⟨p, s, v, heq, hv⟩ := h.session rest hrest
    exact ⟨p, s, v, heq, by rwa [hget _ _ hsession]⟩
  · rw [hget _ _ hsession] at hp hp'
    exact h.alone p p' s hp hp'
  · rw [hget _ _ hmessage] at hm
    exact h.message s m hm
  · rw [hget _ _ hindex]
    exact h.index rest

theorem Legacy.put_totalled (h : Legacy files)
    (hget : files.get [.session, p, sid] = some (.data v)) :
    Legacy (files.put [.session, p, sid] (.data (Record.totalled v))) := by
  obtain ⟨w, hw, hproject, hid, hp, hses⟩ := h.session_of_get (hget ▸ Option.some_ne_none _)
  obtain rfl : v = w := by
    rw [hw] at hget
    exact (Content.data.inj (Option.some.inj hget)).symm
  have hpresent : ∀ path, (files.put [.session, p, sid] (.data (Record.totalled v))).get path ≠
      none → files.get path ≠ none := by
    intro path hpath
    rw [Files.get_put] at hpath
    split at hpath
    next heq =>
      rw [heq, hget]
      exact Option.some_ne_none _
    next => exact hpath
  refine ⟨h.distinct.put, fun rest hrest => ?_, fun p p' s hp hp' => ?_, fun s m hm => ?_,
    fun rest => ?_⟩
  · obtain ⟨p', s', v', rfl, hv'⟩ := h.session rest (hpresent _ hrest)
    by_cases heq : [Name.session, p', s'] = [.session, p, sid]
    · obtain ⟨rfl, rfl⟩ : p' = p ∧ s' = sid := by simpa using heq
      refine ⟨p', s', Record.totalled v, rfl, ?_, ?_, ?_, hp, hses⟩
      · rw [Files.get_put, if_pos rfl]
      · rw [Record.projectID_totalled, hproject]
      · rw [Record.id_totalled, hid]
    · exact ⟨p', s', v', rfl, by rwa [Files.get_put, if_neg heq]⟩
  · exact h.alone p p' s (hpresent _ hp) (hpresent _ hp')
  · exact h.message s m (hpresent _ hm)
  · by_contra hne
    exact hpresent _ hne (h.index rest)

def split (p sid : Name) (v d : V) (s : Files V) : Files V :=
  (s.put [.sessionDiff, sid] (.data d)).put [.session, p, sid] (.data (Record.totalled v))

/-- **Nothing is done, or the diffs of a session are taken out**: they are written before the
session is. -/
theorem stops_sessionDiff (h : Legacy s) (hitem : item ∈ s.below [.session])
    (ht : Proc.Stops handle (sessionDiff item) s t) :
    t = s ∨ ∃ p sid v d, item = [.session, p, sid] ∧ s.get [.session, p, sid] = some (.data v) ∧
      Record.diffs v = some d ∧
        (t = s.put [.sessionDiff, sid] (.data d) ∨ t = split p sid v d s) := by
  obtain ⟨hget, hbelow⟩ := Files.mem_below.mp hitem
  obtain ⟨name, rest, rfl⟩ := Files.below_iff.mp hbelow
  obtain ⟨p, sid, v, heq, hv, hproject, hid, -⟩ := h.session (name :: rest) hget
  obtain ⟨rfl, rfl⟩ := List.cons.inj heq
  simp only [sessionDiff, Proc.bind_eq, List.cons_append, List.nil_append] at ht
  rw [stops_readJSON, hv] at ht
  simp only [splitDiffs, hproject, truthy_name, Option.bind_some, Name.ofString_val, hid] at ht
  cases hdiffs : Record.diffs v with
  | none =>
    rw [hdiffs] at ht
    exact .inl ht
  | some d =>
    rw [hdiffs] at ht
    simp only [Proc.bind_eq] at ht
    exact ht.imp_right fun ht => ⟨name, sid, v, d, rfl, hv, hdiffs, ht⟩

theorem run_sessionDiff (h : Legacy s) (hget : s.get [.session, p, sid] = some (.data v))
    (hdiffs : Record.diffs v = some d) :
    ((sessionDiff [.session, p, sid]).run handle s).2 = split p sid v d s := by
  obtain ⟨w, hw, hproject, hid, -⟩ := h.session_of_get (hget ▸ Option.some_ne_none _)
  obtain rfl : v = w := by
    rw [hw] at hget
    exact (Content.data.inj (Option.some.inj hget)).symm
  simp [sessionDiff, hget, splitDiffs, hproject, truthy_name, Name.ofString_val, hid, hdiffs, split]

theorem get_split {path : Path} : (split p sid v d s).get path =
    if path = [.session, p, sid] then some (.data (Record.totalled v))
    else if path = [.sessionDiff, sid] then some (.data d) else s.get path := by
  rw [split, Files.get_put, Files.get_put]

theorem Legacy.split (h : Legacy s) (hget : s.get [.session, p, sid] = some (.data v)) :
    Legacy (split p sid v d s) := by
  refine h.put_sessionDiff.put_totalled ?_
  rwa [Files.get_put, if_neg (by simp)]

def Undiffed (item : Path) (s : Files V) : Prop :=
  ∀ v, s.get item = some (.data v) → Record.diffs v = none

theorem Undiffed.sessionDiff {rest : Path} (h : Undiffed (.session :: rest) s) :
    Undiffed (.session :: rest) (s.put [.sessionDiff, sid] (.data d)) := by
  intro w hw
  rw [Files.get_put, if_neg (by simp [Name.session, Name.sessionDiff])] at hw
  exact h w hw

theorem Undiffed.split {rest : Path} (h : Undiffed (.session :: rest) s) :
    Undiffed (.session :: rest) (split p sid v d s) := by
  intro w hw
  rw [get_split] at hw
  split at hw
  next =>
    rw [← Content.data.inj (Option.some.inj hw)]
    exact Record.diffs_totalled v
  next =>
    rw [if_neg (by simp [Name.session, Name.sessionDiff])] at hw
    exact h w hw

/-- The files of the sessions, while their diffs are taken out of them. -/
def Splitting (items : List Path) (s : Files V) : Prop := Legacy s ∧ s.below [.session] = items

theorem Splitting.stops {items : List Path} (h : Splitting items s) (hitem : item ∈ items)
    (ht : Proc.Stops handle (Storage.sessionDiff item) s t) : Splitting items t := by
  obtain ⟨hlegacy, rfl⟩ := h
  have hnot : ∀ sid : Name, ¬Files.Below [.session] [.sessionDiff, sid] := by
    rintro sid ⟨hstart, -⟩
    have hname := (List.cons_prefix_cons.mp hstart).1
    exact absurd hname (by decide)
  obtain rfl | ⟨p, sid, v, d, rfl, hget, -, rfl | rfl⟩ := stops_sessionDiff hlegacy hitem ht
  · exact ⟨hlegacy, rfl⟩
  · exact ⟨hlegacy.put_sessionDiff, Files.below_put (.inr (hnot sid))⟩
  · refine ⟨hlegacy.split hget, ?_⟩
    rw [Storage.split, Files.below_put, Files.below_put (.inr (hnot sid))]
    refine .inl ?_
    rw [Files.get_put, if_neg (by simp), hget]
    exact Option.some_ne_none _

theorem run_sessionDiff_of_undiffed (h : Legacy s) (hitem : item ∈ s.below [.session])
    (hundiffed : Undiffed item s) : ((Storage.sessionDiff item).run handle s).2 = s := by
  obtain heq | ⟨p, sid, v, d, rfl, hget, hdiffs, -⟩ :=
    stops_sessionDiff h hitem (Proc.stops_run (Storage.sessionDiff item) s)
  · exact heq
  · rw [hundiffed v hget] at hdiffs
    cases hdiffs

theorem undiffed_sessionDiff (h : Legacy s) (hitem : item ∈ s.below [.session]) :
    Undiffed item ((Storage.sessionDiff item).run handle s).2 := by
  by_cases hundiffed : Undiffed item s
  · rwa [run_sessionDiff_of_undiffed h hitem hundiffed]
  · obtain ⟨rest, rfl⟩ := eq_cons_of_mem_below hitem
    obtain ⟨p, sid, w, rfl, hw, -⟩ := h.session rest (Files.mem_below.mp hitem).1
    cases hdiffs : Record.diffs w with
    | none =>
      refine absurd (fun v hv => ?_) hundiffed
      rw [hw] at hv
      rw [← Content.data.inj (Option.some.inj hv), hdiffs]
    | some d =>
      rw [run_sessionDiff h hw hdiffs]
      intro v hv
      rw [get_split, if_pos rfl] at hv
      rw [← Content.data.inj (Option.some.inj hv)]
      exact Record.diffs_totalled w

theorem run_sessionDiff_of_stops (h : Legacy s) (hitem : item ∈ s.below [.session])
    (ht : Proc.Stops handle (Storage.sessionDiff item) s t) :
    ((Storage.sessionDiff item).run handle t).2 = ((Storage.sessionDiff item).run handle s).2 := by
  have hafter := Splitting.stops ⟨h, rfl⟩ hitem ht
  have hitem' : item ∈ t.below [.session] := by rwa [hafter.2]
  obtain rfl | ⟨p, sid, v, d, rfl, hget, hdiffs, rfl | rfl⟩ := stops_sessionDiff h hitem ht
  · rfl
  · -- The diffs are written again as they were.
    have hget' : (s.put [.sessionDiff, sid] (.data d)).get [.session, p, sid] = some (.data v) := by
      rwa [Files.get_put, if_neg (by simp)]
    rw [run_sessionDiff hafter.1 hget' hdiffs, run_sessionDiff h hget hdiffs, Storage.split,
      Storage.split, Files.put_eq_self h.distinct.put]
    rw [Files.get_put, if_pos rfl]
  · rw [run_sessionDiff h hget hdiffs, run_sessionDiff_of_undiffed hafter.1 hitem']
    intro w hw
    rw [get_split, if_pos rfl] at hw
    rw [← Content.data.inj (Option.some.inj hw)]
    exact Record.diffs_totalled v

/-- **The diffs can be taken out of the sessions again**, wherever that was stopped. -/
theorem run_sessionDiffs_of_stops (h : Legacy s) (ht : Proc.Stops handle sessionDiffs s t) :
    (sessionDiffs.run handle t).2 = (sessionDiffs.run handle s).2 := by
  simp only [sessionDiffs, Proc.bind_eq, Proc.pure_eq] at ht ⊢
  rw [stops_scan, Proc.stops_bind_done] at ht
  simp only [Proc.run_bind, run_scan, Proc.run_done]
  have hmem : ∀ item ∈ (s.below [.session]).filter fun item => decide (item.length = 3),
      item ∈ s.below [.session] := fun item hitem => (List.mem_filter.mp hitem).1
  have hafter : Splitting (s.below [.session]) t :=
    Proc.stops_each _ (fun item hitem u hu v hv => hu.stops (hmem item hitem) hv) ⟨h, rfl⟩ ht
  rw [hafter.2]
  refine Proc.run_each_of_resumes (Splitting (s.below [.session])) (fun _ => True) Undiffed
    (fun item hitem u hu v hv => hu.stops (hmem item hitem) hv)
    (fun item hitem u hu v hv _ => run_sessionDiff_of_stops hu.1 (hu.2 ▸ hmem item hitem) hv)
    (fun item hitem u hu => undiffed_sessionDiff hu.1 (hu.2 ▸ hmem item hitem))
    (fun a ha b hb u hu hub v hv => ?_)
    (fun item hitem u hu => run_sessionDiff_of_undiffed hu.1 (hu.2 ▸ hmem item hitem))
    ⟨h, rfl⟩ ht trivial
  obtain ⟨rest, rfl⟩ := eq_cons_of_mem_below (hmem b hb)
  obtain rfl | ⟨p, sid, w, d, rfl, -, -, rfl | rfl⟩ :=
    stops_sessionDiff hu.1 (hu.2 ▸ hmem a ha) hv
  · exact hub
  · exact hub.sessionDiff
  · exact hub.split

/-! ### What is there when the diffs have been taken out -/

/-- A session without its diffs, if it has any. -/
def settle (v : V) : V := if Record.diffs v = none then v else Record.totalled v

/-- **The diffs have been taken out of some of the sessions**, and everything else is as it was. -/
structure SplitFrom (files u : Files V) : Prop where
  legacy : Legacy u
  below : u.below [.session] = files.below [.session]
  other : ∀ domain rest, domain ≠ .session → domain ≠ .sessionDiff →
    u.get (domain :: rest) = files.get (domain :: rest)
  session : ∀ p s v, files.get [.session, p, s] = some (.data v) →
    u.get [.session, p, s] = some (.data v) ∨ u.get [.session, p, s] = some (.data (settle v))

theorem SplitFrom.stops (h : SplitFrom files s) (hitem : item ∈ files.below [.session])
    (ht : Proc.Stops handle (Storage.sessionDiff item) s t) : SplitFrom files t := by
  have hafter : Splitting (files.below [.session]) t := Splitting.stops ⟨h.legacy, h.below⟩ hitem ht
  obtain rfl | ⟨p, sid, v, d, rfl, hget, hdiffs, rfl | rfl⟩ :=
    stops_sessionDiff h.legacy (h.below ▸ hitem) ht
  · exact h
  · refine ⟨hafter.1, hafter.2, fun domain rest hsession hdiff => ?_, fun p s v hv => ?_⟩
    · rw [Files.get_put, if_neg fun heq => hdiff (List.cons.inj heq).1]
      exact h.other domain rest hsession hdiff
    · rw [Files.get_put, if_neg (by simp)]
      exact h.session p s v hv
  · refine ⟨hafter.1, hafter.2, fun domain rest hsession hdiff => ?_, fun p' s' v' hv => ?_⟩
    · rw [get_split, if_neg fun heq => hsession (List.cons.inj heq).1,
        if_neg fun heq => hdiff (List.cons.inj heq).1]
      exact h.other domain rest hsession hdiff
    · rw [get_split]
      split
      next heq =>
        obtain ⟨rfl, rfl⟩ : p' = p ∧ s' = sid := by simpa using heq
        -- A session of which the diffs have been taken out has none.
        have hsettle : Record.totalled v = settle v' := by
          rcases h.session p' s' v' hv with hold | hold
          · rw [hget] at hold
            obtain rfl := Content.data.inj (Option.some.inj hold)
            rw [settle, if_neg (by rw [hdiffs]; exact Option.some_ne_none d)]
          · rw [hget] at hold
            have hv' := Content.data.inj (Option.some.inj hold)
            rw [settle] at hv'
            split at hv'
            next hnone =>
              subst hv'
              rw [hdiffs] at hnone
              cases hnone
            next =>
              rw [hv', Record.diffs_totalled] at hdiffs
              cases hdiffs
        rw [hsettle]
        exact .inr rfl
      next =>
        exact h.session p' s' v' hv

/-- **After the second migration no session has diffs.** -/
theorem splitFrom_sessionDiffs (h : Legacy files) :
    SplitFrom files (sessionDiffs.run handle files).2 ∧
      ∀ p s v, files.get [.session, p, s] = some (.data v) →
        (sessionDiffs.run handle files).2.get [.session, p, s] = some (.data (settle v)) := by
  simp only [sessionDiffs, Proc.bind_eq, Proc.pure_eq, Proc.run_bind, run_scan, Proc.run_done]
  have hmem : ∀ item ∈ (files.below [.session]).filter fun item => decide (item.length = 3),
      item ∈ files.below [.session] := fun item hitem => (List.mem_filter.mp hitem).1
  have hrefl : SplitFrom files files :=
    ⟨h, rfl, fun _ _ _ _ => rfl, fun p s v hv => .inl hv⟩
  have hrun := Proc.run_each (SplitFrom files)
    (fun item hitem u hu => hu.stops (hmem item hitem) (Proc.stops_run _ _)) hrefl
  refine ⟨hrun, fun p s v hv => ?_⟩
  have hitem : [Name.session, p, s] ∈
      (files.below [.session]).filter fun item => decide (item.length = 3) := by
    refine List.mem_filter.mpr ⟨Files.mem_below.mpr ⟨hv ▸ Option.some_ne_none _, ?_⟩, rfl⟩
    exact Files.below_iff.mpr ⟨p, [s], rfl⟩
  have hundiffed : Undiffed [.session, p, s] ((Proc.each sessionDiff
      ((files.below [.session]).filter fun item => decide (item.length = 3))).run
        handle files).2 := by
    refine Proc.run_each_of_mem (SplitFrom files) _ hitem
      (fun item hitem u hu => hu.stops (hmem item hitem) (Proc.stops_run _ _))
      (fun u hu => undiffed_sessionDiff hu.legacy (hu.below ▸ hmem _ hitem))
      (fun b hb u hu hub => ?_) hrefl
    obtain heq | ⟨p', sid, w, d, rfl, -, -, heq | heq⟩ := stops_sessionDiff hu.legacy
      (hu.below ▸ hmem b hb) (Proc.stops_run (Storage.sessionDiff b) u)
    · rwa [heq]
    · rw [heq]
      exact hub.sessionDiff
    · rw [heq]
      exact hub.split
  rcases hrun.session p s v hv with hget | hget
  · rw [hget, settle, if_pos (hundiffed v hget)]
  · exact hget

end Split

end OpenCms.Storage
