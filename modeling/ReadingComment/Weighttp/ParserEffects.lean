import ReadingComment.Weighttp.Client

/-!
# What the parser leaves alone

`client_parse` counts status codes and takes the response apart; it does not touch the
counters of requests, and of the state of its client it changes nothing but that
the response is complete, with the success that its status says. What was received is
counted before it is called.
-/

namespace Weighttp

/-- The counters of requests are the same. -/
structure Stats.SameRequests (s s' : Stats) : Prop where
  todo : s'.reqTodo = s.reqTodo
  started : s'.reqStarted = s.reqStarted
  done : s'.reqDone = s.reqDone
  success : s'.reqSuccess = s.reqSuccess
  failed : s'.reqFailed = s.reqFailed

theorem Stats.SameRequests.refl (s : Stats) : s.SameRequests s := ⟨rfl, rfl, rfl, rfl, rfl⟩

/-- Nothing of the client that matters outside the parser changes. -/
structure Client.Same (c c' : Client) : Prop where
  state : c'.state = c.state
  received : c'.bytesReceived = c.bytesReceived
  status : c'.statusSuccess = c.statusSuccess
  success : c'.success = c.success
  parsing : c.parserState ≠ .start → c'.parserState ≠ .start

/-- The same, or the response is complete. -/
structure Onward (c c' : Client) : Prop where
  state : c'.state = c.state ∨ c'.state = .atEnd
  received : c'.bytesReceived = c.bytesReceived
  status : c'.statusSuccess = c.statusSuccess
  success : c'.success = c.success ∨ c'.success = c.statusSuccess
  parsing : c.parserState ≠ .start → c'.parserState ≠ .start

theorem Client.Same.onward {c c' : Client} (h : c.Same c') : Onward c c' :=
  ⟨.inl h.state, h.received, h.status, .inl h.success, h.parsing⟩

theorem Client.Same.refl (c : Client) : c.Same c := ⟨rfl, rfl, rfl, rfl, id⟩

theorem Client.Same.trans {c c' c'' : Client} (h : c.Same c') (h' : c'.Same c'') : c.Same c'' :=
  ⟨h'.state.trans h.state, h'.received.trans h.received, h'.status.trans h.status,
    h'.success.trans h.success, h'.parsing ∘ h.parsing⟩

theorem Onward.refl (c : Client) : Onward c c := (Client.Same.refl c).onward

theorem Onward.after {c c' c'' : Client} (h' : Onward c' c'') (h : c.Same c') : Onward c c'' where
  state := h'.state.imp (·.trans h.state) id
  received := h'.received.trans h.received
  status := h'.status.trans h.status
  success := h'.success.imp (·.trans h.success) (·.trans h.status)
  parsing := h'.parsing ∘ h.parsing

theorem Client.Same.completed {c c' : Client} (h : c.Same c') : Onward c c'.completed :=
  ⟨.inr rfl, h.received, h.status, .inr h.status, h.parsing⟩

variable {cfg : Config} {c : Client} {size : ℤ}

theorem headerLine_same {line : List Char} {c c' : Client} (h : headerLine cfg line c = some c') :
    c.Same c' := by
  simp only [headerLine] at h
  split at h
  · cases h
    exact ⟨rfl, rfl, rfl, rfl, id⟩
  · split at h
    · split at h
      · cases h
        exact ⟨rfl, rfl, rfl, rfl, id⟩
      · split at h
        · cases h
          exact ⟨rfl, rfl, rfl, rfl, id⟩
        · cases h
    · split at h
      · split at h
        · cases h
          exact ⟨rfl, rfl, rfl, rfl, id⟩
        · cases h
      · cases h
        exact ⟨rfl, rfl, rfl, rfl, id⟩

theorem endChunk_same {size consumed : ℤ} {r : Client × Bool × Option ℤ}
    (h : endChunk size consumed c = .ok r) : c.Same r.1 := by
  rw [endChunk] at h
  split at h
  · split at h
    · cases h
    · split at h
      · cases h
        exact ⟨rfl, rfl, rfl, rfl, id⟩
      · simp only at h
        split at h
        · cases h
          exact ⟨rfl, rfl, rfl, rfl, id⟩
        · cases h
          exact ⟨rfl, rfl, rfl, rfl, id⟩
  · cases h
    exact ⟨rfl, rfl, rfl, rfl, id⟩

theorem sizeLine_same {r : Client × ℕ} (h : sizeLine size c = some r) :
    c.Same r.1 := by
  simp only [sizeLine] at h
  split at h
  · cases h
  · split at h
    · cases h
    · cases h
      exact ⟨rfl, rfl, rfl, rfl, id⟩

variable {r : Client × Bool}

theorem parseChunks_onward {fuel : ℕ} (h : parseChunks fuel size c = .ok r) : Onward c r.1 := by
  induction fuel generalizing size c with
  | zero => cases h
  | succ fuel ih =>
    -- what is left of a chunk, and the next one
    have hchunk : ∀ (size : ℤ) (c' : Client), c.Same c' →
        ∀ next, (∀ c ok, next (c, ok, none) = .ok (c, ok)) →
          (∀ c ok size, next (c, ok, some size) = parseChunks fuel size c) →
          endChunk size (consume size c').2 (consume size c').1 >>= next = .ok r →
            Onward c r.1 := by
      intro size c' hc' next hnone hsome hr
      cases hend : endChunk size (consume size c').2 (consume size c').1 with
      | error e =>
        rw [hend] at hr
        cases hr
      | ok x =>
        have hend' := endChunk_same hend
        have hx : c.Same x.1 :=
          (hc'.trans ⟨rfl, rfl, rfl, rfl, id⟩ : c.Same (consume size c').1).trans hend'
        rw [hend] at hr
        obtain ⟨c'', ok, rest⟩ := x
        cases rest with
        | none =>
          obtain rfl := Except.ok.inj ((hnone c'' ok).symm.trans hr)
          exact hx.onward
        | some size' => exact (ih ((hsome c'' ok size').symm.trans hr)).after hx
    simp only [parseChunks] at h
    split at h
    · split at h
      · cases h
        exact .refl c
      · rename_i c' n hline
        have hc' : c.Same c' := sizeLine_same hline
        split at h
        · cases h
          exact hc'.completed
        · exact hchunk _ { c' with parserOffset := c'.parserOffset + n }
            (hc'.trans ⟨rfl, rfl, rfl, rfl, id⟩) _ (fun _ _ => rfl) (fun _ _ _ => rfl) h
    · exact hchunk _ _ (.refl c) _ (fun _ _ => rfl) (fun _ _ _ => rfl) h

theorem parseBody_onward (h : parseBody size c = .ok r) : Onward c r.1 := by
  rw [parseBody] at h
  split at h
  · exact parseChunks_onward h
  · simp only at h
    have hsame : c.Same { c with buffer := [] } := ⟨rfl, rfl, rfl, rfl, id⟩
    split at h
    · cases h
      exact hsame.onward
    · split at h
      · cases h
        exact hsame.completed
      · cases h
        exact hsame.onward

theorem parseHeader_onward {fuel : ℕ} (h : parseHeader cfg size fuel c = .ok r) : Onward c r.1 := by
  induction fuel generalizing c with
  | zero => cases h
  | succ fuel ih =>
    rw [parseHeader] at h
    split at h
    · cases h
      exact .refl c
    · simp only at h
      split at h
      · cases h
        exact .refl c
      · split at h
        · exact (parseBody_onward h).after ⟨rfl, rfl, rfl, rfl, fun _ => nofun⟩
        · have hended (cr : ℕ) : c.Same (c.endLine cr) := ⟨rfl, rfl, rfl, rfl, id⟩
          split at h
          · cases h
            exact (hended _).onward
          · rename_i c' hline
            have hc' := (hended _).trans (headerLine_same hline)
            split at h
            · exact (parseBody_onward h).after (hc'.trans ⟨rfl, rfl, rfl, rfl, fun _ => nofun⟩)
            · exact (ih h).after (hc'.trans ⟨rfl, rfl, rfl, rfl, id⟩)

/-! ## Counters -/

def Stats.classes (s : Stats) : ℕ := s.req2xx + s.req3xx + s.req4xx + s.req5xx

def Stats.good (s : Stats) : ℕ := s.req2xx + s.req3xx

def Client.parsed (c : Client) : ℕ := if c.parserState = .start then 0 else 1

def Client.granted (c : Client) : ℕ := if c.statusSuccess then 1 else 0

theorem Client.parsed_le (c : Client) : c.parsed ≤ 1 := by
  rw [parsed]
  split <;> decide

def Client.Fair (c : Client) : Prop := c.success = true → c.statusSuccess = true

/-- What the parser counts, when it goes on or has failed. -/
structure Scored (c c' : Conn) (ok : Bool) : Prop where
  errors : c'.stats.reqError = c.stats.reqError
  good : c'.client.granted + c.stats.good ≤ c.client.granted + c'.stats.good
  fair : c.client.Fair → c'.client.Fair
  classes : c'.stats.classes + c.client.parsed ≤
    c.stats.classes + if ok then c'.client.parsed else 1

theorem Scored.refl (c : Conn) (ok : Bool) : Scored c c ok := by
  refine ⟨rfl, Nat.le_refl _, id, Nat.add_le_add_left ?_ _⟩
  cases ok with
  | false => exact c.client.parsed_le
  | true => exact Nat.le_refl _

theorem Scored.of_client {c c' : Conn} (h : Scored c c' true) {d : Client} (hd : Onward c'.client d)
    (ok : Bool) : Scored c ⟨c'.stats, d⟩ ok := by
  refine ⟨h.errors, ?_, ?_, h.classes.trans (Nat.add_le_add_left ?_ _)⟩
  · have hgranted : d.granted = c'.client.granted := by
      rw [Client.granted, hd.status, Client.granted]
    exact hgranted ▸ h.good
  · intro hfair hsuccess
    rw [hd.status]
    rcases hd.success with hs | hs
    · exact h.fair hfair (hs ▸ hsuccess)
    · exact hs ▸ hsuccess
  · have hle := c'.client.parsed_le
    cases ok with
    | false => exact hle
    | true =>
      change c'.client.parsed ≤ d.parsed
      by_cases hstart : c'.client.parserState = .start
      · rw [Client.parsed, if_pos hstart]
        exact Nat.zero_le _
      · have hd' : d.parsed = 1 := if_neg (hd.parsing hstart)
        exact hd' ▸ hle

/-- What the parser does to the counters and to the state of the client. -/
structure Kept (c c' : Conn) (ok : Bool) : Prop where
  stats : c.stats.SameRequests c'.stats
  state : c'.client.state = c.client.state ∨ c'.client.state = .atEnd
  received : c'.client.bytesReceived = c.client.bytesReceived
  score : Scored c c' ok

theorem Kept.refl (c : Conn) (ok : Bool) : Kept c c ok := ⟨.refl _, .inl rfl, rfl, .refl c ok⟩

theorem countStatus_kept {code : ℕ} {c c' : Conn} (hstart : c.client.parserState = .start)
    (h : countStatus code c = some c') : Kept c c' false := by
  have hparsed : c.client.parsed = 0 := if_pos hstart
  have hgranted : c.client.granted ≤ 1 := by
    rw [Client.granted]
    split <;> decide
  rw [countStatus] at h
  split at h
  · cases h
    refine ⟨⟨rfl, rfl, rfl, rfl, rfl⟩, .inl rfl, rfl, rfl, ?_, fun _ _ => rfl, ?_⟩
    · simp only [Stats.good, Client.granted, if_true]
      omega
    · simp [Stats.classes, hparsed]
      omega
  · split at h
    · cases h
      refine ⟨⟨rfl, rfl, rfl, rfl, rfl⟩, .inl rfl, rfl, rfl, ?_, fun _ _ => rfl, ?_⟩
      · simp only [Stats.good, Client.granted, if_true]
        omega
      · simp [Stats.classes, hparsed]
        omega
    · split at h
      · cases h
        refine ⟨⟨rfl, rfl, rfl, rfl, rfl⟩, .inl rfl, rfl, rfl, Nat.le_refl _, id, ?_⟩
        simp [Stats.classes, hparsed]
        omega
      · split at h
        · cases h
          refine ⟨⟨rfl, rfl, rfl, rfl, rfl⟩, .inl rfl, rfl, rfl, Nat.le_refl _, id, ?_⟩
          simp [Stats.classes, hparsed]
          omega
        · cases h

theorem parseStart_kept {c : Conn} (hstart : c.client.parserState = .start) :
    Kept c (parseStart c).1 (parseStart c).2 := by
  rw [parseStart]
  split
  · exact .refl _ _
  · split
    · exact .refl _ _
    · rename_i c' hc'
      obtain ⟨code, -, hcount⟩ := Option.bind_eq_some_iff.mp hc'
      have hkept := countStatus_kept hstart hcount
      split
      · exact hkept
      · split
        · exact hkept
        · obtain ⟨hstats, hstate, hreceived, herrors, hgood, hfair, hclasses⟩ := hkept
          exact ⟨hstats, hstate, hreceived, herrors, hgood, hfair, hclasses⟩

theorem Kept.of_client {c c' : Conn} (h : Kept c c' true) {x : Except Fault (Client × Bool)}
    (hx : ∀ y, x = .ok y → Onward c'.client y.1) {r : Conn × Bool}
    (hr : ((fun y => (({ c' with client := y.1 } : Conn), y.2)) <$> x) = .ok r) :
    Kept c r.1 r.2 := by
  cases x with
  | error e => cases hr
  | ok y =>
    cases hr
    have hy := hx y rfl
    refine ⟨h.stats, ?_, hy.received.trans h.received, h.score.of_client hy y.2⟩
    rcases hy.state with hsame | hdone
    · exact h.state.imp hsame.trans hsame.trans
    · exact .inr hdone

theorem clientParse_kept {c : Conn} {r : Conn × Bool} (h : clientParse cfg size c = .ok r) :
    Kept c r.1 r.2 := by
  rw [clientParse] at h
  split at h
  · rename_i hstate
    have hstart := parseStart_kept hstate
    split at h
    · cases h
      exact .refl _ _
    · split at h
      · rename_i c' hc'
        cases h
        rw [hc'] at hstart
        exact hstart
      · rename_i c' hc'
        rw [hc'] at hstart
        exact hstart.of_client (fun _ => parseHeader_onward) h
  · exact (Kept.refl c true).of_client (fun _ => parseHeader_onward) h
  · exact (Kept.refl c true).of_client (fun _ => parseBody_onward) h

theorem received_kept {bytes : List Char} {c c' : Conn} {ok : Bool}
    (h : received cfg bytes c = .ok (c', ok)) :
    c.stats.SameRequests c'.stats ∧
      (ok = true → c'.client.state = c.client.state ∨ c'.client.state = .atEnd) ∧
      (ok = false → c'.client.state = .error) ∧
      c'.client.bytesReceived = c.client.bytesReceived + bytes.length ∧ Scored c c' ok := by
  simp only [received] at h
  split at h
  · cases h
    obtain ⟨herrors, hgood, hfair, hclasses⟩ := Scored.refl c false
    exact ⟨⟨rfl, rfl, rfl, rfl, rfl⟩, nofun, fun _ => rfl, rfl, herrors, hgood, hfair, hclasses⟩
  · cases hparse : clientParse cfg bytes.length ⟨{ c.stats with
        bytesTotal := c.stats.bytesTotal + bytes.length }, { c.client with
        bytesReceived := c.client.bytesReceived + bytes.length
        buffer := c.client.buffer ++ bytes }⟩ with
    | error e =>
      rw [hparse] at h
      cases h
    | ok r =>
      obtain ⟨hstats, hstate, hreceived, hscore⟩ := clientParse_kept hparse
      have hstats' : c.stats.SameRequests r.1.stats :=
        ⟨hstats.todo, hstats.started, hstats.done, hstats.success, hstats.failed⟩
      rw [hparse] at h
      obtain ⟨c'', ok'⟩ := r
      obtain ⟨herrors, hgood, hfair, hclasses⟩ := hscore
      cases ok' with
      | false =>
        cases h
        exact ⟨hstats', nofun, fun _ => rfl, hreceived, herrors, hgood, hfair, hclasses⟩
      | true =>
        cases h
        exact ⟨hstats', fun _ => hstate, nofun, hreceived, herrors, hgood, hfair, hclasses⟩

end Weighttp
