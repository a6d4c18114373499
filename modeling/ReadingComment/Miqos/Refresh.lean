import ReadingComment.Miqos.Commands

/-!
# Refreshing the hosts

The two loops of `refresh_all_hosts_qos` take a device from the hosts of one table to
those of the next. Hosts that are gone are deleted before new ones are added, so
that what is needed of the tables is only that in each of them all last octets are
valid and different.
-/

namespace Miqos

open Function Lib List

/-! ## Tables without clashes -/

/-- The last octets in a table are valid, and different. -/
structure IpMap.Clear (m : IpMap) : Prop where
  id : ∀ ip e, ⟨ip, e⟩ ∈ m.entries → nid ip = some e.id
  valid : ∀ ip e, ⟨ip, e⟩ ∈ m.entries → ValidId e.id
  inj : ∀ ip ip' e e', ⟨ip, e⟩ ∈ m.entries → ⟨ip', e'⟩ ∈ m.entries → e.id = e'.id → ip = ip'

def IpMap.ids (m : IpMap) : Set ℕ := {id | ∃ ip e, ⟨ip, e⟩ ∈ m.entries ∧ e.id = id}

theorem IpMap.ids_empty : IpMap.ids ∅ = ∅ := by
  ext id
  refine iff_of_false ?_ (Set.notMem_empty id)
  rintro ⟨ip, e, hmem, -⟩
  cases hmem

theorem IpMap.clear_empty : IpMap.Clear ∅ := ⟨nofun, nofun, nofun⟩

theorem IpMap.Clear.nodup {m : IpMap} (h : m.Clear) : (m.entries.map fun x => x.2.id).Nodup := by
  refine List.Nodup.map_on ?_ m.nodupKeys.nodup
  rintro ⟨ip, e⟩ hx ⟨ip', e'⟩ hy hid
  obtain rfl := h.inj ip ip' e e' hx hy hid
  obtain rfl : e = e' := by
    have hlookup := mem_entries_iff.mp hx
    rw [mem_entries_iff.mp hy] at hlookup
    exact (Option.some.inj hlookup).symm
  rfl

theorem IpMap.Clear.mapVals {m : IpMap} {f : Ip → HostEntry → HostEntry}
    (hf : ∀ ip e, (f ip e).id = e.id) (h : m.Clear) : IpMap.Clear (mapVals f m) := by
  refine ⟨?_, ?_, ?_⟩
  · intro ip e he
    obtain ⟨e₀, he₀, rfl⟩ := mem_entries_mapVals.mp he
    rw [hf]
    exact h.id ip e₀ he₀
  · intro ip e he
    obtain ⟨e₀, he₀, rfl⟩ := mem_entries_mapVals.mp he
    rw [hf]
    exact h.valid ip e₀ he₀
  · intro ip ip' e e' he he' hid
    obtain ⟨e₀, he₀, rfl⟩ := mem_entries_mapVals.mp he
    obtain ⟨e₁, he₁, rfl⟩ := mem_entries_mapVals.mp he'
    rw [hf, hf] at hid
    exact h.inj ip ip' e₀ e₁ he₀ he₁ hid

theorem IpMap.ids_mapVals {m : IpMap} {f : Ip → HostEntry → HostEntry}
    (hf : ∀ ip e, (f ip e).id = e.id) : IpMap.ids (Lib.mapVals f m) = IpMap.ids m := by
  ext id
  constructor
  · rintro ⟨ip, e, he, rfl⟩
    obtain ⟨e₀, he₀, rfl⟩ := mem_entries_mapVals.mp he
    exact ⟨ip, e₀, he₀, (hf ip e₀).symm⟩
  · rintro ⟨ip, e, he, rfl⟩
    exact ⟨ip, f ip e, mem_entries_mapVals.mpr ⟨e, he, rfl⟩, hf ip e⟩

theorem nxtState_id (crt : Option IpMap) (ip : Ip) (e : HostEntry) :
    (nxtState crt ip e).id = e.id := by
  rw [nxtState]
  split <;> rfl

theorem crtState_id (nxt : IpMap) (ip : Ip) (e : HostEntry) : (crtState nxt ip e).id = e.id := rfl

/-- A report in which the hosts that are alive have valid and different last octets. -/
structure Good (report : Report) : Prop where
  valid : ∀ ip, Alive report ip → ∃ id, nid ip = some id ∧ ValidId id
  inj : ∀ ip ip', Alive report ip → Alive report ip' → nid ip = nid ip' → ip = ip'

theorem Good.clear {report : Report} {l : HostLists} (h : Good report)
    (hl : Listed l (records report)) : l.nxt.Clear := by
  have halive : ∀ ip e, ⟨ip, e⟩ ∈ l.nxt.entries → Alive report ip :=
    fun ip e he => (hl.mem ip).mp (mem_of_entry he)
  refine ⟨hl.id, ?_, ?_⟩
  · intro ip e he
    obtain ⟨id, hid, hvalid⟩ := h.valid ip (halive ip e he)
    obtain rfl := Option.some.inj (hid.symm.trans (hl.id ip e he))
    exact hvalid
  · intro ip ip' e e' he he' hid
    apply h.inj ip ip' (halive ip e he) (halive ip' e' he')
    rw [hl.id ip e he, hl.id ip' e' he', hid]

/-! ## The loops -/

variable {kinds : Kinds} {t : Tc} {ids : Set ℕ}

def Gone (l : List (Σ _ : Ip, HostEntry)) : Set ℕ := {id | ∃ x ∈ l, x.2.st = .del ∧ x.2.id = id}

/-- **Hosts that are gone.** -/
theorem delHosts_spec {l : List (Σ _ : Ip, HostEntry)} (h : Holds kinds t ids)
    (hl : ∀ x ∈ l, ValidId x.2.id ∧ x.2.id ∈ ids) (hnodup : (l.map fun x => x.2.id).Nodup) :
    ∃ t', delHosts kinds l t = .ok (t', true) ∧ Holds kinds t' (ids \ Gone l) := by
  induction l generalizing t ids with
  | nil =>
    have hgone : ids \ Gone [] = ids := by
      ext id
      refine ⟨And.left, fun hid => ⟨hid, ?_⟩⟩
      rintro ⟨x, hx, -⟩
      cases hx
    rw [hgone]
    exact ⟨t, rfl, h⟩
  | cons x l ih =>
    rw [map_cons, nodup_cons] at hnodup
    obtain ⟨hvalid, hmem⟩ := hl x (mem_cons_self ..)
    have hne : ∀ y ∈ l, y.2.id ≠ x.2.id := by
      intro y hy heq
      exact hnodup.1 (heq ▸ mem_map_of_mem (f := fun x => x.2.id) hy)
    rcases Classical.em (x.2.st = .del) with hst | hst
    · obtain ⟨t₁, hrun, h₁, -⟩ := @updateHost_del kinds x.2.id t ids ⟨0, 0, 0⟩ h hvalid hmem
      obtain ⟨t', hrest, h'⟩ := ih h₁ (fun y hy => ⟨(hl y (mem_cons_of_mem _ hy)).1,
        (hl y (mem_cons_of_mem _ hy)).2, hne y hy⟩) hnodup.2
      refine ⟨t', ?_, ?_⟩
      · rw [delHosts, if_pos hst, hrun]
        exact hrest
      · have hgone : ids \ Gone (x :: l) = (ids \ {x.2.id}) \ Gone l := by
          rw [Set.sdiff_sdiff]
          congr 1
          ext id
          constructor
          · rintro ⟨y, hy, hdel, rfl⟩
            rcases mem_cons.mp hy with rfl | hy
            · exact .inl rfl
            · exact .inr ⟨y, hy, hdel, rfl⟩
          · rintro (rfl | ⟨y, hy, hdel, rfl⟩)
            · exact ⟨x, mem_cons_self .., hst, rfl⟩
            · exact ⟨y, mem_cons_of_mem _ hy, hdel, rfl⟩
        rw [hgone]
        exact h'
    · obtain ⟨t', hrest, h'⟩ := ih h (fun y hy => hl y (mem_cons_of_mem _ hy)) hnodup.2
      refine ⟨t', ?_, ?_⟩
      · rw [delHosts, if_neg hst]
        exact hrest
      · have hgone : Gone (x :: l) = Gone l := by
          ext id
          constructor
          · rintro ⟨y, hy, hdel, rfl⟩
            rcases mem_cons.mp hy with rfl | hy
            · exact absurd hdel hst
            · exact ⟨y, hy, hdel, rfl⟩
          · rintro ⟨y, hy, hdel, rfl⟩
            exact ⟨y, mem_cons_of_mem _ hy, hdel, rfl⟩
        rw [hgone]
        exact h'

/-- A host of the next table can be installed: it is there and stays, or it is new. -/
structure Fits (alive : AliveHosts) (ids : Set ℕ) (x : Σ _ : Ip, HostEntry) : Prop where
  valid : ValidId x.2.id
  alive : x.2.mac ∈ alive
  state : (x.2.st = .upd ∧ x.2.id ∈ ids) ∨ (x.2.st = .new ∧ x.2.id ∉ ids)

/-- **Hosts that are new or stay.** -/
theorem setHosts_spec {alive : AliveHosts} {data : Mac → Option ClassData}
    {l : List (Σ _ : Ip, HostEntry)} (h : Holds kinds t ids) (hl : ∀ x ∈ l, Fits alive ids x)
    (hnodup : (l.map fun x => x.2.id).Nodup) :
    setHosts kinds alive data l t = .error .lua ∨
    ∃ t', setHosts kinds alive data l t = .ok (t', true) ∧
      Holds kinds t' (ids ∪ {id | ∃ x ∈ l, x.2.id = id}) ∧
      (∀ x ∈ l, ∃ d, data x.2.mac = some d ∧ t' (.cls (hostClass x.2.id)) = some (.cls d)) ∧
      ∀ id, (∀ x ∈ l, x.2.id ≠ id) → t' (.cls (hostClass id)) = t (.cls (hostClass id)) := by
  induction l generalizing t ids with
  | nil =>
    refine .inr ⟨t, rfl, ?_, nofun, fun _ _ => rfl⟩
    have hnone : {id | ∃ x ∈ ([] : List (Σ _ : Ip, HostEntry)), x.2.id = id} = ∅ := by
      ext id
      refine iff_of_false ?_ (Set.notMem_empty id)
      rintro ⟨x, hx, -⟩
      cases hx
    rw [hnone, Set.union_empty]
    exact h
  | cons x l ih =>
    rw [map_cons, nodup_cons] at hnodup
    obtain ⟨hvalid, halive, hstate⟩ := hl x (mem_cons_self ..)
    have hne : ∀ y ∈ l, y.2.id ≠ x.2.id := by
      intro y hy heq
      exact hnodup.1 (heq ▸ mem_map_of_mem (f := fun x => x.2.id) hy)
    rw [setHosts, if_neg (not_not_intro halive)]
    cases hd : data x.2.mac with
    | none => exact .inl rfl
    | some d =>
      -- the host itself
      obtain ⟨t₁, hrun, h₁, hclass, hframe⟩ : ∃ t₁,
          updateHost kinds x.2.st.act x.2.id d t = .ok (t₁, true) ∧
          Holds kinds t₁ (insert x.2.id ids) ∧ t₁ (.cls (hostClass x.2.id)) = some (.cls d) ∧
          ∀ id ≠ x.2.id, t₁ (.cls (hostClass id)) = t (.cls (hostClass id)) := by
        rcases hstate with ⟨hst, hmem⟩ | ⟨hst, hnew⟩
        · rw [hst, Set.insert_eq_of_mem hmem]
          exact updateHost_change h hvalid hmem
        · rw [hst]
          exact updateHost_add h hvalid hnew
      have hrest : ∀ y ∈ l, Fits alive (insert x.2.id ids) y := by
        intro y hy
        obtain ⟨hvalid', halive', hstate'⟩ := hl y (mem_cons_of_mem _ hy)
        refine ⟨hvalid', halive', hstate'.imp ?_ ?_⟩
        · rintro ⟨hst, hmem⟩
          exact ⟨hst, .inr hmem⟩
        · rintro ⟨hst, hnew⟩
          exact ⟨hst, fun hmem => hmem.elim (hne y hy) hnew⟩
      simp only [hrun]
      rcases ih h₁ hrest hnodup.2 with hlua | ⟨t', hok, h', hset, hframe'⟩
      · exact .inl hlua
      · refine .inr ⟨t', hok, ?_, ?_, ?_⟩
        · have hunion : ids ∪ {id | ∃ y ∈ x :: l, y.2.id = id} =
              insert x.2.id ids ∪ {id | ∃ y ∈ l, y.2.id = id} := by
            ext id
            constructor
            · rintro (hmem | ⟨y, hy, rfl⟩)
              · exact .inl (.inr hmem)
              · rcases mem_cons.mp hy with rfl | hy
                · exact .inl (.inl rfl)
                · exact .inr ⟨y, hy, rfl⟩
            · rintro ((rfl | hmem) | ⟨y, hy, rfl⟩)
              · exact .inr ⟨x, mem_cons_self .., rfl⟩
              · exact .inl hmem
              · exact .inr ⟨y, mem_cons_of_mem _ hy, rfl⟩
          rw [hunion]
          exact h'
        · intro y hy
          rcases mem_cons.mp hy with rfl | hy
          · refine ⟨d, hd, ?_⟩
            rw [hframe' _ hne]
            exact hclass
          · exact hset y hy
        · intro id hid
          rw [hframe' id fun y hy => hid y (mem_cons_of_mem _ hy),
            hframe id (hid x (mem_cons_self ..)).symm]

/-! ## Both devices -/

/-- The tables are ready for a refresh. -/
structure Staged (s : Daemon) (crt nxt : IpMap) : Prop where
  crt_eq : (s.crt.map (·.entries)).getD [] = crt.entries
  nxt_eq : s.nxt = some nxt
  clearCrt : crt.Clear
  clearNxt : nxt.Clear
  crtState : ∀ ip e, ⟨ip, e⟩ ∈ crt.entries → (e.st = .del ↔ ip ∉ nxt)
  nxtState : ∀ ip e, ⟨ip, e⟩ ∈ nxt.entries → (ip ∈ crt ∧ e.st = .upd) ∨ (ip ∉ crt ∧ e.st = .new)
  alive : ∀ ip e, ⟨ip, e⟩ ∈ nxt.entries → e.mac ∈ s.alive

def Rated (t : Tc) (m : IpMap) (data : Mac → Option ClassData) : Prop :=
  ∀ ip e, ⟨ip, e⟩ ∈ m.entries →
    ∃ d, data e.mac = some d ∧ t (.cls (hostClass e.id)) = some (.cls d)

variable {setup : Setup} {s : Daemon} {crt nxt : IpMap}
  {shares : AList fun _ : Mac => Option Share} {d : Direction}

section

variable (h : Staged s crt nxt)

include h

theorem Staged.remaining {id : ℕ} (hid : id ∈ crt.ids \ Gone crt.entries) :
    ∃ ip e, ⟨ip, e⟩ ∈ crt.entries ∧ ip ∈ nxt ∧ e.id = id := by
  obtain ⟨⟨ip, e, he, rfl⟩, hgone⟩ := hid
  refine ⟨ip, e, he, ?_, rfl⟩
  by_contra hnot
  exact hgone ⟨_, he, (h.crtState ip e he).mpr hnot, rfl⟩

theorem Staged.id_eq {ip : Ip} {e e' : HostEntry} (he : ⟨ip, e⟩ ∈ crt.entries)
    (he' : ⟨ip, e'⟩ ∈ nxt.entries) : e.id = e'.id :=
  Option.some.inj ((h.clearCrt.id ip e he).symm.trans (h.clearNxt.id ip e' he'))

theorem Staged.fits :
    ∀ x ∈ nxt.entries, Fits s.alive (crt.ids \ Gone crt.entries) x := by
  rintro ⟨ip, e⟩ he
  refine ⟨h.clearNxt.valid ip e he, h.alive ip e he, ?_⟩
  rcases h.nxtState ip e he with ⟨hmem, hst⟩ | ⟨hnot, hst⟩
  · refine .inl ⟨hst, ?_⟩
    obtain ⟨e₀, he₀⟩ := exists_entry hmem
    have hid := h.id_eq he₀ he
    refine ⟨⟨ip, e₀, he₀, hid⟩, ?_⟩
    rintro ⟨⟨ip', e'⟩, he', hdel, hid'⟩
    have hid'' : e'.id = e₀.id := hid'.trans hid.symm
    obtain rfl := h.clearCrt.inj ip' ip e' e₀ he' he₀ hid''
    exact (h.crtState ip' e' he').mp hdel (mem_of_entry he)
  · refine .inr ⟨hst, fun hmem => ?_⟩
    obtain ⟨ip', e', he', hmem', hid'⟩ := h.remaining hmem
    obtain ⟨e'', he''⟩ := exists_entry hmem'
    have hid'' : e''.id = e.id := (h.id_eq he' he'').symm.trans hid'
    obtain rfl := h.clearNxt.inj ip' ip e'' e he'' he hid''
    exact hnot (mem_of_entry he')

/-- **One device.** -/
theorem refresh_spec (ht : Holds setup.kinds (s.tc d) crt.ids) :
    s.refresh setup shares d = .error .lua ∨
    ∃ t', s.refresh setup shares d = .ok ({ s with tc := update s.tc d t' }, true) ∧
      Holds setup.kinds t' nxt.ids ∧ Rated t' nxt (s.wanted setup shares d) := by
  have hl : ∀ x ∈ crt.entries, ValidId x.2.id ∧ x.2.id ∈ crt.ids :=
    fun ⟨ip, e⟩ he => ⟨h.clearCrt.valid ip e he, ip, e, he, rfl⟩
  obtain ⟨t₁, hdel, h₁⟩ := delHosts_spec ht hl h.clearCrt.nodup
  have hrefresh : ∀ r, setHosts setup.kinds s.alive (s.wanted setup shares d) nxt.entries t₁ = r →
      s.refresh setup shares d =
        (fun r => ({ s with tc := update s.tc d r.1 }, r.2)) <$> r := by
    rintro r rfl
    rw [Daemon.refresh, h.crt_eq, hdel, h.nxt_eq]
    rfl
  rcases setHosts_spec h₁ h.fits h.clearNxt.nodup with hlua | ⟨t', hok, h', hset, -⟩
  · exact .inl (hrefresh _ hlua)
  · refine .inr ⟨t', hrefresh _ hok, ?_, fun ip e he => hset ⟨ip, e⟩ he⟩
    have hids : crt.ids \ Gone crt.entries ∪ {id | ∃ x ∈ nxt.entries, x.2.id = id} = nxt.ids := by
      ext id
      constructor
      · rintro (hmem | ⟨⟨ip, e⟩, he, hid⟩)
        · obtain ⟨ip, e, he, hmem', rfl⟩ := h.remaining hmem
          obtain ⟨e', he'⟩ := exists_entry hmem'
          exact ⟨ip, e', he', (h.id_eq he he').symm⟩
        · exact ⟨ip, e, he, hid⟩
      · rintro ⟨ip, e, he, hid⟩
        exact .inr ⟨⟨ip, e⟩, he, hid⟩
    rw [← hids]
    exact h'

/-- **Both devices**, and the tables are switched. -/
theorem flushHosts_spec (ht : ∀ d, Holds setup.kinds (s.tc d) crt.ids) :
    s.flushHosts setup shares = .error .lua ∨
    ∃ tc, s.flushHosts setup shares = .ok { s with tc := tc, crt := some nxt, nxt := none } ∧
      ∀ d, Holds setup.kinds (tc d) nxt.ids ∧ Rated (tc d) nxt (s.wanted setup shares d) := by
  rcases @refresh_spec setup s crt nxt shares .down h (ht .down) with hlua |
    ⟨t, hok, hholds, hrated⟩
  · refine .inl ?_
    rw [Daemon.flushHosts, hlua]
    rfl
  · have h' : Staged { s with tc := update s.tc .down t } crt nxt :=
      ⟨h.crt_eq, h.nxt_eq, h.clearCrt, h.clearNxt, h.crtState, h.nxtState, h.alive⟩
    have hup : Holds setup.kinds (update s.tc .down t .up) crt.ids := by
      have hne : Direction.up ≠ Direction.down := nofun
      rw [update_of_ne hne]
      exact ht .up
    rcases @refresh_spec setup _ crt nxt shares .up h' hup with hlua | ⟨t', hok', hholds', hrated'⟩
    · refine .inl ?_
      rw [Daemon.flushHosts, hok]
      simp only [bind, Except.bind, if_true, hlua]
    · refine .inr ⟨update (update s.tc .down t) .up t', ?_, ?_⟩
      · rw [Daemon.flushHosts, hok]
        simp only [bind, Except.bind, if_true, hok', pure, Except.pure]
        rw [h.nxt_eq]
        rfl
      · intro d
        cases d with
        | up =>
          rw [update_self]
          exact ⟨hholds', hrated'⟩
        | down =>
          have hne : Direction.down ≠ Direction.up := nofun
          rw [update_of_ne hne, update_self]
          exact ⟨hholds, hrated⟩

end

end Miqos
