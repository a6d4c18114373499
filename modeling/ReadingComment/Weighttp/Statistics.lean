import Mathlib.Algebra.Order.BigOperators.Group.Finset
import ReadingComment.Lib.Locks
import ReadingComment.Weighttp.Requests

/-!
# The statistics of a worker and their report (`weighttp/src/client.c`, `weighttp.c`)

The parser counts the status of a response and the state machine counts the request when it ends.
What was counted by the parser only is kept with the clients: the invariant adds it up.
-/

namespace Weighttp

open Function

open Finset (range)

/-- A client that works on no request parses none. -/
structure Client.Sound (c : Client) : Prop where
  fair : c.Fair
  parsing : c.parserState ≠ .start → c.state ≠ .start

/-! ## One client -/

/-- What may become of a client and the counters. -/
structure Tally (c c' : Conn) : Prop where
  classes : c'.stats.classes + c.stats.reqDone + c.client.parsed ≤
    c.stats.classes + c'.stats.reqDone + c'.client.parsed
  good : c'.stats.reqSuccess + c'.client.granted + c.stats.good ≤
    c.stats.reqSuccess + c.client.granted + c'.stats.good
  errors : c'.stats.reqError + c.stats.reqFailed ≤ c.stats.reqError + c'.stats.reqFailed
  sound : c'.client.Sound

/-- What may become of them before the request is counted as done. -/
structure Ending (c d : Conn) : Prop where
  classes : d.stats.classes + c.client.parsed ≤ c.stats.classes + 1
  good : d.client.granted + c.stats.good ≤ c.client.granted + d.stats.good
  done : d.stats.reqDone = c.stats.reqDone
  success : d.stats.reqSuccess = c.stats.reqSuccess
  errors : d.stats.reqError + c.stats.reqFailed ≤
    c.stats.reqError + d.stats.reqFailed + if d.client.success then 0 else 1
  fair : d.client.Fair

variable {c d e : Conn} {cfg : Config}

theorem Tally.of_client {c' : Client} (hparser : c'.parserState = c.client.parserState)
    (hstatus : c'.statusSuccess = c.client.statusSuccess) (hsound : c'.Sound) :
    Tally c ⟨c.stats, c'⟩ := by
  refine ⟨?_, ?_, Nat.le_refl _, hsound⟩
  · rw [Client.parsed, Client.parsed, hparser]
  · rw [Client.granted, Client.granted, hstatus]

theorem Ending.of_client {c' : Client} (hstatus : c'.statusSuccess = c.client.statusSuccess)
    (hfair : c'.Fair) : Ending c ⟨c.stats, c'⟩ := by
  refine ⟨Nat.add_le_add_left c.client.parsed_le _, ?_, rfl, rfl, Nat.le_add_right _ _, hfair⟩
  rw [Client.granted, Client.granted, hstatus]

/-- A request that failed is counted as an error too. -/
theorem Ending.error (h : d.stats.classes + c.client.parsed ≤ c.stats.classes + 1)
    (hgood : d.client.granted + c.stats.good ≤ c.client.granted + d.stats.good)
    (hsame : c.stats.SameRequests d.stats) (herrors : d.stats.reqError = c.stats.reqError) :
    Ending c (clientError d) := by
  refine ⟨h, hgood, hsame.done, hsame.success, ?_, nofun⟩
  change d.stats.reqError + 1 + c.stats.reqFailed ≤ c.stats.reqError + d.stats.reqFailed + 1
  rw [herrors, hsame.failed]
  omega

/-- The client is ready for another request. -/
theorem Ending.tally (h : Ending c d) (he : e.stats = countDone d) :
    Tally c (clientReset cfg e) := by
  obtain ⟨hclasses, hgood, hdone, hsuccess, herrors, hfair⟩ := h
  have hreset : Tally c ⟨e.stats, clientNew cfg⟩ := by
    rw [he, countDone]
    split
    case isTrue hs =>
      have hgranted : d.client.granted = 1 := if_pos (hfair hs)
      rw [if_pos hs] at herrors
      refine ⟨?_, ?_, herrors, by rintro ⟨⟩, fun h => absurd rfl h⟩
      · change d.stats.classes + _ + _ ≤ _ + (d.stats.reqDone + 1) + 0
        omega
      · change d.stats.reqSuccess + 1 + 0 + _ ≤ _ + _ + d.stats.good
        omega
    case isFalse hs =>
      rw [if_neg hs] at herrors
      refine ⟨?_, ?_, herrors, by rintro ⟨⟩, fun h => absurd rfl h⟩
      · change d.stats.classes + _ + _ ≤ _ + (d.stats.reqDone + 1) + 0
        omega
      · change d.stats.reqSuccess + 0 + _ ≤ _ + _ + d.stats.good
        omega
  -- the state of the client and the number of requests that were started do not matter
  by_cases hkeep : e.client.keepalive = true
  · have hstats : (clientReset cfg e).stats = _ := Worker.clientReset_alive cfg hkeep
    exact ⟨hstats ▸ hreset.classes, hstats ▸ hreset.good, hstats ▸ hreset.errors, by rintro ⟨⟩,
      fun h => absurd rfl h⟩
  · have hstats : (clientReset cfg e).stats = _ := Worker.clientReset_closed cfg hkeep
    exact ⟨hstats ▸ hreset.classes, hstats ▸ hreset.good, hstats ▸ hreset.errors, by rintro ⟨⟩,
      fun h => absurd rfl h⟩

/-! ## The worker -/

namespace Worker

/-- **The invariant** of the counters. -/
structure Totals (s : Stats) (numClients : ℕ) (client : ℕ → Client) : Prop where
  classes : s.classes ≤ s.reqDone + ∑ j ∈ range numClients, (client j).parsed
  good : s.reqSuccess + ∑ j ∈ range numClients, (client j).granted ≤ s.good
  errors : s.reqError ≤ s.reqFailed
  sound : ∀ j, (client j).Sound

def Tallied (w : Worker) : Prop := Totals w.stats w.numClients w.client

/-- A worker counts no response that it did not ask for, no success without a good status, and no
error that is not a failed request. -/
structure Consistent (w : Worker) : Prop where
  classes : w.stats.classes ≤ w.stats.reqStarted
  success : w.stats.reqSuccess ≤ w.stats.good
  error : w.stats.reqError ≤ w.stats.reqFailed

variable {w w' : Worker} {i : ℕ}

theorem Tallied.consistent (h : w.Tallied) (hinv : w.Inv) : w.Consistent := by
  refine ⟨?_, (Nat.le_add_right _ _).trans h.good, h.errors⟩
  -- a client that has parsed a status works on a request
  have hworking : ∑ j ∈ range w.numClients, (w.client j).parsed ≤ w.working.card := by
    rw [working, Finset.card_eq_sum_ones, Finset.sum_filter]
    refine Finset.sum_le_sum fun j _ => ?_
    rw [Client.parsed]
    split
    · exact Nat.zero_le _
    · rename_i hparsing
      rw [if_pos (.inl ((h.sound j).parsing hparsing))]
  rw [hinv.books.started]
  exact h.classes.trans (Nat.add_le_add_left hworking _)

theorem Tallied.step (h : w.Tallied) (hi : i < w.numClients) (ho : w.OnlyClient w' i)
    (ht : Tally (w.conn i) (w'.conn i)) : w'.Tallied := by
  have hmem := Finset.mem_range.mpr hi
  have hparsed : ∑ j ∈ range w.numClients, (w.client j).parsed + (w'.client i).parsed =
      ∑ j ∈ range w.numClients, (w'.client j).parsed + (w.client i).parsed :=
    Lib.sum_exchange hmem fun j hj => congrArg Client.parsed (ho.others j hj).symm
  have hgranted : ∑ j ∈ range w.numClients, (w.client j).granted + (w'.client i).granted =
      ∑ j ∈ range w.numClients, (w'.client j).granted + (w.client i).granted :=
    Lib.sum_exchange hmem fun j hj => congrArg Client.granted (ho.others j hj).symm
  obtain ⟨hclasses, hgood, herrors, hsound⟩ := ht
  simp only [conn] at hclasses hgood herrors
  have hc := h.classes
  have hg := h.good
  have he := h.errors
  refine ⟨?_, ?_, by omega, ?_⟩
  · rw [ho.num]
    omega
  · rw [ho.num]
    omega
  · intro j
    rcases eq_or_ne j i with rfl | hj
    · exact hsound
    · exact ho.others j hj ▸ h.sound j

theorem put_only (w : Worker) (i : ℕ) (c : Conn) : w.OnlyClient (w.put i c) i :=
  ⟨rfl, rfl, fun _ hj => update_of_ne hj _ _⟩

theorem Tallied.put (h : w.Tallied) (hi : i < w.numClients) (ht : Tally (w.conn i) d) :
    (w.put i d).Tallied := h.step hi (put_only w i d) ((put_conn w i d).symm ▸ ht)

/-- The client starts a request. -/
theorem Tallied.atStart (h : w.Tallied) : (w.atStart i).Tallied := ⟨h.1, h.2, h.3, h.4⟩

/-- A client whose request ends is stored, and the request is counted. -/
theorem Tallied.atEnd (h : w.Tallied) (hi : i < w.numClients) (he : Ending (w.conn i) d) :
    ((w.put i d).atEnd i).Tallied := by
  have hcount : countDone ((w.put i d).conn i) = countDone d := congrArg countDone (put_conn w i d)
  have hput : ∀ e, e.stats = countDone ((w.put i d).conn i) →
      (((w.put i d).count i).put i (clientReset w.cfg e)).Tallied := by
    intro e hstats
    refine h.step hi ⟨rfl, rfl, fun j hj => ?_⟩ ?_
    · exact (update_of_ne hj _ _).trans (update_of_ne hj _ _)
    · rw [put_conn]
      exact he.tally (hstats.trans hcount)
  rw [Worker.atEnd]
  split
  · obtain ⟨hclasses, hgood, herrors, hsound⟩ := hput ⟨_, { ((w.put i d).count i).client i with
      keepalive := false }⟩ rfl
    exact ⟨hclasses, hgood, herrors, hsound⟩
  · obtain ⟨hclasses, hgood, herrors, hsound⟩ := hput (((w.put i d).count i).conn i) rfl
    rw [Worker.again]
    split
    · exact ⟨hclasses, hgood, herrors, hsound⟩
    · exact ⟨hclasses, hgood, herrors, hsound⟩

theorem put_self (w : Worker) (i : ℕ) : w.put i (w.conn i) = w := by
  rw [put, conn, update_eq_self]

section

variable (h : w.Tallied) (hi : i < w.numClients)

include h hi

theorem Tallied.atError (he : Ending (w.conn i) (clientError d)) :
    ((w.put i d).atError i).Tallied := by
  rw [Worker.atError, put_conn, put_put]
  exact h.atEnd hi he

/-- A request fails before anything was parsed. -/
theorem Tallied.fails {c : Client} (hstatus : c.statusSuccess = (w.client i).statusSuccess) :
    ((w.putClient i c).atError i).Tallied := by
  refine h.atError (d := ⟨w.stats, c⟩) hi (.error ?_ ?_ (.refl _) rfl)
  · exact Nat.add_le_add_left (w.client i).parsed_le _
  · rw [Client.granted, Client.granted, hstatus]
    rfl

theorem Tallied.readBytes (hstate : (w.client i).state ≠ .start) {bytes : List Char}
    (hw : w.readBytes i bytes = .ok w') : w'.Tallied := by
  obtain ⟨⟨c, ok⟩, hr, hw⟩ := Lib.bind_eq_ok hw
  obtain ⟨hsame, honward, -, -, herrors, hgood, hfair, hclasses⟩ := received_kept hr
  have hfair' := hfair (h.sound i).fair
  cases hw
  cases ok with
  | false => exact h.atError hi (.error hclasses hgood hsame herrors)
  | true =>
    rw [if_pos rfl] at hclasses ⊢
    split
    · refine h.atEnd hi ⟨?_, hgood, hsame.done, hsame.success, ?_, hfair'⟩
      · exact hclasses.trans (Nat.add_le_add_left c.client.parsed_le _)
      · rw [herrors, hsame.failed]
        exact Nat.le_add_right _ _
    · have hput : (w.put i c).Tallied := by
        refine h.put hi ⟨?_, ?_, ?_, hfair', fun _ => ?_⟩
        · rw [hsame.done]
          omega
        · rw [hsame.success]
          omega
        · rw [herrors, hsame.failed]
        · rcases honward rfl with hs | hs
          · exact hs ▸ hstate
          · exact hs ▸ nofun
      exact hput

theorem Tallied.readNothing : (w.readNothing i).Tallied := by
  have hstatus : (disconnected (w.client i)).statusSuccess = (w.client i).statusSuccess := by
    rw [disconnected]
    split <;> rfl
  simp only [Worker.readNothing]
  split
  · refine h.atEnd (d := ⟨w.stats, disconnected (w.client i)⟩) hi (.of_client hstatus ?_)
    rw [disconnected]
    split
    · rename_i hclosed
      exact fun _ => hclosed.2.2.1
    · exact (h.sound i).fair
  · exact h.fails hi hstatus

/-- The client is stored in another state. -/
theorem Tallied.goes {c : Client} (hparser : c.parserState = (w.client i).parserState)
    (hstatus : c.statusSuccess = (w.client i).statusSuccess)
    (hsuccess : c.success = (w.client i).success)
    (hstate : c.state ≠ .start ∨ c.state = (w.client i).state) : (w.putClient i c).Tallied := by
  refine h.put (d := ⟨w.stats, c⟩) hi (.of_client hparser hstatus ⟨?_, ?_⟩)
  · rw [Client.Fair, hstatus, hsuccess]
    exact (h.sound i).fair
  · rw [hparser]
    rcases hstate with hne | heq
    · exact fun _ => hne
    · exact heq ▸ (h.sound i).parsing

end

theorem Tallied.answer (h : w.Tallied) (hinv : w.Inv) {a : Answer} (hw : w.answer a = .ok w') :
    w'.Tallied := by
  cases hb : w.busy with
  | none =>
    rw [Worker.answer, hb] at hw
    exact Except.ok.inj hw ▸ h
  | some b =>
    obtain ⟨i, c⟩ := b
    have hi := (hinv.inside i c hb).1
    have hfails : (w.atError i).Tallied := by
      have := h.fails hi (c := w.client i) rfl
      rwa [show w.putClient i (w.client i) = w from put_self w i] at this
    have hconnected : ∀ {state} first, state ≠ .start → (w.connected i first state).Tallied := by
      intro state first hstate
      have hput := h.goes hi (c := { w.client i with state := state }) rfl rfl rfl (.inl hstate)
      cases first with
      | false => exact hput
      | true => exact hput
    rw [Worker.answer, hb] at hw
    cases c with
    | socket =>
      simp only at hw
      split at hw <;> cases hw
      · exact h
      · exact hfails
      · have hput := h.goes hi (c := { w.client i with watched := true }) rfl rfl rfl (.inr rfl)
        exact hput
    | connect first =>
      simp only at hw
      split at hw <;> cases hw
      · exact hconnected first (by rintro ⟨⟩)
      · exact h
      · exact hfails
      · exact hconnected first (by rintro ⟨⟩)
      · exact hconnected first (by rintro ⟨⟩)
    | write =>
      have hstate := hinv.talking i (.inl hb)
      simp only at hw
      split at hw <;> cases hw
      · exact h
      · exact hfails
      · exact h.atEnd (d := ⟨w.stats, { w.client i with state := .atEnd }⟩) hi
          (.of_client rfl (h.sound i).fair)
      · rename_i n _
        have hput := h.goes hi (c := { w.client i with
          requestOffset := (w.client i).requestOffset + (n + 1)
          state := if (w.client i).requestOffset + (n + 1) = w.cfg.requestSize then .reading
            else (w.client i).state }) rfl rfl rfl (.inl (by
              dsimp only
              split
              · rintro ⟨⟩
              · exact hstate))
        exact hput
    | read =>
      simp only at hw
      split at hw
      · exact Except.ok.inj hw ▸ h
      · exact Except.ok.inj hw ▸ h.goes hi rfl rfl rfl (.inl (by rintro ⟨⟩))
      · exact Except.ok.inj hw ▸ h.readNothing hi
      · exact h.readBytes hi (hinv.talking i (.inr hb)) hw

/-- **The step lemma.** -/
theorem Tallied.act (h : w.Tallied) (hinv : w.Inv) {a : Action} (ha : a.Allowed w)
    (hw : w.act a = .ok w') : w'.Tallied := by
  have henter : ∀ i, i < w.numClients → (w.enter i).Tallied := by
    intro i hi
    have hself := put_self w i
    rw [Worker.enter]
    split
    · exact h.atStart
    · exact h
    · exact h
    · exact h
    · exact hself ▸ h.fails hi (c := w.client i) rfl
    · exact hself ▸ h.atEnd hi (.of_client rfl (h.sound i).fair)
  cases a with
  | launch =>
    obtain ⟨-, i, hphase⟩ := ha
    rw [Worker.act, hphase] at hw
    cases hw
    rw [Worker.launch]
    split
    · have hstate := hinv.fresh i hphase i (Nat.le_refl i)
      simp only
      split
      · simp only [Worker.enter, hstate]
        exact ⟨h.1, h.2, h.3, h.4⟩
      · exact h
    · exact h
  | event i => exact Except.ok.inj hw ▸ henter i ha.2.2.1
  | answer a => exact h.answer hinv hw
  | leave => exact Except.ok.inj hw ▸ (h : Totals ..)

end Worker

def Runs (cfg : Config) (w : Worker) : Prop :=
  ∃ numClients numRequests, (workerSystem cfg numClients numRequests).Reach (fun _ _ => True) w

theorem Runs.consistent {w : Worker} (h : Runs cfg w) : w.Consistent := by
  obtain ⟨numClients, numRequests, h⟩ := h
  have hinv : w.Inv ∧ w.Tallied := by
    apply h.invariant
    · refine ⟨Worker.workerNew_inv cfg _ _, Nat.zero_le _, ?_, Nat.le_refl _,
        fun _ => ⟨nofun, fun h => absurd rfl h⟩⟩
      exact Nat.le_of_eq ((Nat.zero_add _).trans (Finset.sum_eq_zero fun _ _ => rfl))
    · rintro w a w' ⟨hinv, htallied⟩ ha - hw
      exact ⟨hinv.act ha hw, htallied.act hinv ha hw⟩
  exact hinv.2.consistent hinv.1

/-! ## The report -/

/-- The loop of `main` that adds the counters of a worker up. -/
def addStats (stats s : Stats) : Stats := { stats with
  reqStarted := stats.reqStarted + s.reqStarted
  reqDone := stats.reqDone + s.reqDone
  reqSuccess := stats.reqSuccess + s.reqSuccess
  reqFailed := stats.reqFailed + s.reqFailed
  bytesTotal := stats.bytesTotal + s.bytesTotal
  bytesBody := stats.bytesBody + s.bytesBody
  req2xx := stats.req2xx + s.req2xx
  req3xx := stats.req3xx + s.req3xx
  req4xx := stats.req4xx + s.req4xx
  req5xx := stats.req5xx + s.req5xx }

/-- `stats` of `main`, from `memset` on. -/
def total (ws : List Worker) : Stats :=
  ws.foldl (fun stats w => addStats stats w.stats) ⟨0, 0, 0, 0, 0, 0, 0, 0, 0, 0, 0, 0⟩

/-- The counters that `main` prints. -/
def reported : List (Stats → ℕ) :=
  [Stats.reqStarted, Stats.reqDone, Stats.reqSuccess, Stats.reqFailed, Stats.reqError, Stats.req2xx,
    Stats.req3xx, Stats.req4xx, Stats.req5xx, Stats.bytesTotal, Stats.bytesBody]

/-- A counter that the loop adds is the sum. -/
theorem foldl_addStats (f : Stats → ℕ) (hf : ∀ a b, f (addStats a b) = f a + f b) (ws : List Worker)
    (a : Stats) : f (ws.foldl (fun stats w => addStats stats w.stats) a) =
      f a + (ws.map fun w => f w.stats).sum := by
  induction ws generalizing a with
  | nil => rfl
  | cons w ws ih => rw [List.foldl_cons, ih, hf, List.map_cons, List.sum_cons, Nat.add_assoc]

theorem total_reqError (ws : List Worker) (a : Stats) :
    (ws.foldl (fun stats w => addStats stats w.stats) a).reqError = a.reqError := by
  induction ws generalizing a with
  | nil => rfl
  | cons w ws ih => exact ih _

/-- **The statistics.** In all runs of the workers their counters are consistent; and the totals are
the sums of the counters if and only if no worker has counted an error. -/
theorem statistics_summed (cfg : Config) {ws : List Worker} (h : ∀ w ∈ ws, Runs cfg w) :
    ((∀ w ∈ ws, w.Consistent) ∧ ∀ f ∈ reported, f (total ws) = (ws.map fun w => f w.stats).sum) ↔
      ∀ w ∈ ws, w.stats.reqError = 0 := by
  rw [and_iff_right fun w hw => (h w hw).consistent]
  have hsum : ∀ f : Stats → ℕ, (∀ a b, f (addStats a b) = f a + f b) →
      f ⟨0, 0, 0, 0, 0, 0, 0, 0, 0, 0, 0, 0⟩ = 0 →
        f (total ws) = (ws.map fun w => f w.stats).sum := by
    intro f hf h0
    rw [total, foldl_addStats f hf, h0, Nat.zero_add]
  have herror : (total ws).reqError = 0 := total_reqError ws _
  have hzero : (ws.map fun w => w.stats.reqError).sum = 0 ↔ ∀ w ∈ ws, w.stats.reqError = 0 := by
    rw [List.sum_eq_zero_iff, List.forall_mem_map]
  rw [← hzero]
  constructor
  · exact fun h => (h Stats.reqError (by simp [reported])).symm.trans herror
  · intro h
    have herrors : (total ws).reqError = (ws.map fun w => w.stats.reqError).sum :=
      herror.trans h.symm
    simp only [reported, List.forall_mem_cons]
    refine ⟨?_, ?_, ?_, ?_, herrors, ?_, ?_, ?_, ?_, ?_, ?_, nofun⟩
    all_goals exact hsum _ (fun _ _ => rfl) rfl

/-- Two workers with one client and one request each; one is answered `200`, the other `404`. -/
theorem statistics_summed_answered : ∃ w w', Runs ⟨false, 10⟩ w ∧ Runs ⟨false, 10⟩ w' ∧
    (total [w, w']).req2xx = 1 ∧ (total [w, w']).req4xx = 1 ∧ (total [w, w']).reqSuccess = 1 ∧
      (total [w, w']).reqFailed = 1 ∧ (∀ v ∈ [w, w'], v.Consistent) ∧
        ∀ f ∈ reported, f (total [w, w']) = ([w, w'].map fun v => f v.stats).sum := by
  have h₁ : (workerSystem ⟨false, 10⟩ 1 1).Reach (fun _ _ => True) _ :=
    .step (a := .launch) .init ⟨rfl, 0, rfl⟩ trivial rfl
  have h₂ := h₁.next (.answer (sendsThen (.ok []))) nofun trivial rfl
  have h₃ := h₂.next (.answer (sendsThen (.ok []))) nofun trivial rfl
  have h₄ := h₃.next .launch ⟨rfl, 1, rfl⟩ trivial rfl
  have h₅ := h₄.next (.event 0) ⟨rfl, rfl, Nat.one_pos, rfl⟩ trivial rfl
  have h₆ := h₅.next (.answer (sendsThen (.ok []))) nofun trivial rfl
  have h₇ := h₆.next (.event 0) ⟨rfl, rfl, Nat.one_pos, rfl⟩ trivial rfl
  have hgood := h₇.next (.answer (sendsThen
    (.ok "HTTP/1.1 200 OK\r\nContent-Length: 2\r\n\r\nhi".toList))) nofun trivial rfl
  have hbad := h₇.next (.answer (sendsThen
    (.ok "HTTP/1.1 404 NO\r\nContent-Length: 2\r\n\r\nno".toList))) nofun trivial rfl
  have hruns : ∀ v ∈ [_, _], Runs ⟨false, 10⟩ v := List.forall_mem_cons.mpr
    ⟨⟨1, 1, hgood⟩, List.forall_mem_singleton.mpr ⟨1, 1, hbad⟩⟩
  obtain ⟨hconsistent, hsums⟩ := (statistics_summed ⟨false, 10⟩ hruns).mpr
    (List.forall_mem_cons.mpr ⟨rfl, List.forall_mem_singleton.mpr rfl⟩)
  exact ⟨_, _, ⟨1, 1, hgood⟩, ⟨1, 1, hbad⟩, rfl, rfl, rfl, rfl, hconsistent, hsums⟩

/-- The worker whose only client gets no socket, when it has ended. -/
theorem statistics_lost : ∃ w, Runs ⟨false, 10⟩ w ∧
    (total [w]).reqError ≠ ([w].map fun w => w.stats.reqError).sum := by
  refine ⟨_, ⟨1, 1, .step (.step (.step (.step .init (a := .launch) ⟨rfl, 0, rfl⟩ trivial rfl)
    (a := .answer ⟨.error .other, .ok (), .ok 0, .ok [], []⟩) nofun trivial rfl)
    (a := .launch) ⟨rfl, 1, rfl⟩ trivial rfl) (a := .leave) ⟨rfl, rfl, rfl⟩ trivial rfl⟩, ?_⟩
  decide

end Weighttp
