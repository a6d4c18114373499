import ReadingComment.Lib.Run
import ReadingComment.Spserver.Strtok

/-!
# SMTP sessions (`spserver/spsmtp.cpp`)

The adapter between the server and a user's SMTP handler keeps what it has seen of a
session in a few variables, and a command decides by them whether the handler is
asked. A message is delivered by `data()`. It should be called for a sender and
recipients that were accepted since the last message or `RSET`.

A message that is fed to the adapter is a line, or the body of a mail in the data mode.
The handler is asked at most once for each message, and its verdict and the text of its
reply come with the message.
-/

namespace Spserver

open Lib List

/-! ## Commands -/

/-- `sp_strtok( line, 0, cmd, 128, ' ', &args )`: the command and its arguments. -/
def spStrtok (line : List Char) : List Char × Option (List Char) :=
  let t := Strtok.spStrtok line 0 (replicate 128 '\x00') 128 ' '
  (cstr t.dest, t.next)

/-- A prefix that is skipped, whatever its case, and the blanks after it. -/
def skipPrefix (word args : List Char) : List Char :=
  (if caseEq (args.take word.length) word then args.drop word.length else args).dropWhile isSpace

/-- `sp_strlcpy` into an array of 128 characters. -/
def strlcpy128 (s : List Char) : List Char := s.take 127

/-- What the handler returns. -/
inductive Verdict where
  /-- `eAccept` -/
  | accept
  /-- `eReject` -/
  | reject
  /-- `eClose` -/
  | close
  deriving DecidableEq, Repr

/-- A call of the user's `SP_SmtpHandler`. -/
inductive SmtpCall where
  | helo (args : List Char)
  | ehlo (args : List Char)
  | auth (user pass : List Char)
  | noop (args : Option (List Char))
  | help (args : Option (List Char))
  | mailFrom (args : List Char)
  | rcpt (args : List Char)
  | data (body : List Char)
  | rset
  deriving DecidableEq, Repr

/-- `mAuthStep`. -/
inductive AuthStep where
  | other
  | user
  | pass
  deriving DecidableEq, Repr

/-- `SP_SmtpSession`. -/
structure SmtpSession where
  authStep : AuthStep
  seenAuth : Bool
  user : List Char
  pass : List Char
  seenHelo : Bool
  seenSender : Bool
  rcptCount : ℕ
  seenData : Bool
  dataMode : Bool
  deriving DecidableEq, Repr

/-- A message with what the handler answers when it is asked. -/
structure SmtpInput where
  msg : List Char
  verdict : Verdict
  text : List Char
  deriving DecidableEq, Repr

/-- What comes of a message. -/
structure SmtpOutcome where
  session : SmtpSession
  call : Option (SmtpCall × Verdict)
  reply : List Char
  ret : Verdict

namespace SmtpSession

def new : SmtpSession := ⟨.other, false, [], [], false, false, 0, false, false⟩

/-- `reset()`. -/
def reset (s : SmtpSession) : SmtpSession :=
  { s with seenSender := false, rcptCount := 0, seenData := false, dataMode := false }

/-- A reply without a call of the handler. -/
def answer (s : SmtpSession) (reply : String) : SmtpOutcome := ⟨s, none, reply.toList, .accept⟩

/-- The handler is called; `accepted` is the session when it accepts. -/
def asks (s : SmtpSession) (i : SmtpInput) (call : SmtpCall) (accepted : SmtpSession) :
    SmtpOutcome :=
  ⟨if i.verdict = .accept then accepted else s, some (call, i.verdict), i.text, i.verdict⟩

/-- `EHLO` and `HELO`. -/
def greet (s : SmtpSession) (i : SmtpInput) (name : String) (call : List Char → SmtpCall)
    (args : Option (List Char)) : SmtpOutcome :=
  match args with
  | none => s.answer ("501 Syntax: " ++ name ++ " <hostname>\r\n")
  | some args =>
    if s.seenHelo then s.answer ("503 Duplicate " ++ name ++ "\r\n")
    else s.asks i (call args) { s with seenHelo := true }

/-- `ehlo(args, reply)`. -/
def ehlo (s : SmtpSession) (i : SmtpInput) : Option (List Char) → SmtpOutcome :=
  s.greet i "EHLO" .ehlo

/-- `helo(args, reply)`. -/
def helo (s : SmtpSession) (i : SmtpInput) : Option (List Char) → SmtpOutcome :=
  s.greet i "HELO" .helo

/-- `auth(args, reply)`. -/
def auth (s : SmtpSession) (args : Option (List Char)) : SmtpOutcome :=
  if ! s.seenHelo then s.answer "503 Error: send EHLO first\r\n"
  else if s.seenAuth then s.answer "503 Duplicate AUTH\r\n"
  else
    match args with
    | none => s.answer "501 Syntax: AUTH LOGIN\r\n"
    | some args =>
      if caseEq args "LOGIN".toList then
        answer { s with authStep := .user } "334 VXNlcm5hbWU6\r\n"
      else s.answer "504 Unrecognized authentication type.\r\n"

/-- `mail(args, reply)`. -/
def mail (s : SmtpSession) (i : SmtpInput) (args : Option (List Char)) : SmtpOutcome :=
  if ! s.seenHelo then s.answer "503 Error: send HELO first\r\n"
  else if s.seenSender then s.answer "503 Sender already specified.\r\n"
  else
    match args with
    | none => s.answer "501 Syntax: MAIL FROM:<address>\r\n"
    | some args =>
      s.asks i (.mailFrom (skipPrefix "FROM:".toList args)) { s with seenSender := true }

/-- `rcpt(args, reply)`. -/
def rcpt (s : SmtpSession) (i : SmtpInput) (args : Option (List Char)) : SmtpOutcome :=
  if ! s.seenHelo then s.answer "503 Error: send HELO first\r\n"
  else if ! s.seenSender then s.answer "503 Error: need MAIL command\r\n"
  else if s.seenData then s.answer "503 Bad sequence of commands\r\n"
  else
    match args with
    | none => s.answer "501 Syntax: RCPT TO:<address>\r\n"
    | some args =>
      s.asks i (.rcpt (skipPrefix "TO:".toList args)) { s with rcptCount := s.rcptCount + 1 }

/-- `data(reply)`. -/
def data (s : SmtpSession) : SmtpOutcome :=
  if ! s.seenHelo then s.answer "503 Error: send HELO first\r\n"
  else if ! s.seenSender then s.answer "503 Error: need MAIL command\r\n"
  else if s.rcptCount = 0 then s.answer "503 Error: need RCPT command\r\n"
  else
    -- setDataMode( 1 )
    answer { s with dataMode := true, seenData := true }
      "354 Start mail input; end with <CRLF>.<CRLF>\r\n"

/-- A line that is a command, with its arguments. -/
def command (s : SmtpSession) (i : SmtpInput) : SmtpOutcome :=
  let (cmd, args) := spStrtok i.msg
  if caseEq cmd "EHLO".toList then s.ehlo i args
  else if caseEq cmd "AUTH".toList then s.auth args
  else if caseEq cmd "HELO".toList then s.helo i args
  else if caseEq cmd "MAIL".toList then s.mail i args
  else if caseEq cmd "RCPT".toList then s.rcpt i args
  else if caseEq cmd "DATA".toList then s.data
  else if caseEq cmd "RSET".toList then
    ⟨s.reset, some (.rset, i.verdict), i.text, i.verdict⟩
  else if caseEq cmd "NOOP".toList then s.asks i (.noop args) s
  else if caseEq cmd "HELP".toList then s.asks i (.help args) s
  else if caseEq cmd "QUIT".toList then
    ⟨s, none, "221 Closing connection. Good bye.\r\n".toList, .close⟩
  else
    ⟨s, none, "500 Syntax error, command unrecognized <".toList ++ cmd ++ ">.\r\n".toList, .accept⟩

/-- The branches of `SP_SmtpHandlerAdapter::handle`. -/
def respond (s : SmtpSession) (i : SmtpInput) : SmtpOutcome :=
  if s.dataMode then
    ⟨{ s with dataMode := false }, some (.data i.msg, i.verdict), i.text, i.verdict⟩
  else
    match s.authStep with
    | .user => answer { s with user := strlcpy128 i.msg, authStep := .pass } "334 UGFzc3dvcmQ6\r\n"
    | .pass =>
      let s := { s with pass := strlcpy128 i.msg, authStep := .other }
      s.asks i (.auth s.user s.pass) { s with seenAuth := true }
    | .other => s.command i

/-- `SP_SmtpHandlerAdapter::handle`: a reply without a line break gets one. -/
def handle (s : SmtpSession) (i : SmtpInput) : SmtpOutcome :=
  let o := s.respond i
  { o with reply := if '\n' ∈ o.reply then o.reply else o.reply ++ ['\n'] }

end SmtpSession

/-! ## Runs -/

/-- A session with the calls of its handler, the latest last. -/
structure SmtpState where
  session : SmtpSession
  history : List (SmtpCall × Verdict)

def SmtpState.step (s : SmtpState) (i : SmtpInput) : SmtpState where
  session := (s.session.handle i).session
  history := s.history ++ (s.session.handle i).call.toList

/-- The messages of one session, one after the other. -/
def smtpSystem : System SmtpState SmtpInput Empty where
  init := ⟨.new, []⟩
  Allowed := fun _ _ => True
  step := fun s i => .ok (s.step i)

/-! ## What was accepted -/

def Accepted (history : List (SmtpCall × Verdict)) (call : SmtpCall) : Prop :=
  (call, .accept) ∈ history

/-- After this call the sender and the recipients are forgotten. -/
def SmtpCall.Ends : SmtpCall → Prop
  | .data _ => True
  | .rset => True
  | _ => False

def HasSender (history : List (SmtpCall × Verdict)) : Prop :=
  ∃ old sender new, history = old ++ (.mailFrom sender, .accept) :: new ∧ ∀ c ∈ new, ¬ c.1.Ends

/-- After a sender a recipient was accepted in the present transaction. -/
def HasRcpt (history : List (SmtpCall × Verdict)) : Prop :=
  ∃ old sender new rcpt last,
    history = old ++ (.mailFrom sender, .accept) :: (new ++ (.rcpt rcpt, .accept) :: last) ∧
    ∀ c ∈ new ++ last, ¬ c.1.Ends

def Greeted (history : List (SmtpCall × Verdict)) : Prop :=
  ∃ args, Accepted history (.helo args) ∨ Accepted history (.ehlo args)

/-- What a message needs before it is delivered. -/
def Prepared (history : List (SmtpCall × Verdict)) : Prop := Greeted history ∧ HasRcpt history

variable {s : SmtpSession} {i : SmtpInput} {history : List (SmtpCall × Verdict)}
  {c : SmtpCall × Verdict}

theorem Greeted.append (h : Greeted history) (c : SmtpCall × Verdict) :
    Greeted (history ++ [c]) := by
  obtain ⟨args, hhelo | hehlo⟩ := h
  · exact ⟨args, .inl (mem_append_left _ hhelo)⟩
  · exact ⟨args, .inr (mem_append_left _ hehlo)⟩

theorem HasSender.append (h : HasSender history) (hc : ¬ c.1.Ends) :
    HasSender (history ++ [c]) := by
  obtain ⟨old, sender, new, rfl, hnew⟩ := h
  refine ⟨old, sender, new ++ [c], append_assoc .., ?_⟩
  intro d hd
  rcases mem_append.mp hd with hd | hd
  · exact hnew d hd
  · obtain rfl := mem_singleton.mp hd
    exact hc

theorem HasRcpt.append (h : HasRcpt history) (hc : ¬ c.1.Ends) : HasRcpt (history ++ [c]) := by
  obtain ⟨old, sender, new, rcpt, last, rfl, hnew⟩ := h
  refine ⟨old, sender, new, rcpt, last ++ [c], ?_, ?_⟩
  · rw [append_assoc, cons_append, append_assoc, cons_append]
  · intro d hd
    rw [← append_assoc] at hd
    rcases mem_append.mp hd with hd | hd
    · exact hnew d hd
    · obtain rfl := mem_singleton.mp hd
      exact hc

theorem hasSender_accepted (history : List (SmtpCall × Verdict)) (args : List Char) :
    HasSender (history ++ [(.mailFrom args, .accept)]) := ⟨history, args, [], rfl, nofun⟩

theorem HasSender.rcpt (h : HasSender history) (args : List Char) :
    HasRcpt (history ++ [(.rcpt args, .accept)]) := by
  obtain ⟨old, sender, new, rfl, hnew⟩ := h
  refine ⟨old, sender, new, args, [], append_assoc .., ?_⟩
  rw [append_nil]
  exact hnew

/-- **The invariant**: what the session has seen was accepted. Once a message was announced nothing
is said of its sender and recipients until `RSET`. -/
structure SmtpInv (s : SmtpSession) (history : List (SmtpCall × Verdict)) : Prop where
  helo : s.seenHelo = true → Greeted history
  sender : s.seenSender = true → s.seenData = false → HasSender history
  rcpt : 0 < s.rcptCount → s.seenData = false → HasRcpt history
  data : s.dataMode = true → Prepared history
  announced : s.dataMode = true → s.seenData = true

theorem SmtpInv.new : SmtpInv .new [] := ⟨nofun, nofun, nofun, nofun, nofun⟩

theorem SmtpInv.append (h : SmtpInv s history) (hc : ¬ c.1.Ends) : SmtpInv s (history ++ [c]) where
  helo hs := (h.helo hs).append c
  sender hs hd := (h.sender hs hd).append hc
  rcpt hs hd := (h.rcpt hs hd).append hc
  data hs := ⟨(h.data hs).1.append c, (h.data hs).2.append hc⟩
  announced := h.announced

/-- What comes of a message that is not a mail. -/
structure Keeps (history : List (SmtpCall × Verdict)) (o : SmtpOutcome) : Prop where
  inv : SmtpInv o.session (history ++ o.call.toList)
  call : ∀ body v, o.call ≠ some (.data body, v)

theorem keeps_answer (h : SmtpInv s history) (reply : String) : Keeps history (s.answer reply) := by
  refine ⟨?_, nofun⟩
  rw [SmtpSession.answer, Option.toList_none, append_nil]
  exact h

theorem keeps_asks {call : SmtpCall} {accepted : SmtpSession} (h : SmtpInv s history)
    (hcall : ¬ call.Ends)
    (haccepted : SmtpInv accepted (history ++ [(call, .accept)])) :
    Keeps history (s.asks i call accepted) := by
  refine ⟨?_, ?_⟩
  · rw [SmtpSession.asks, Option.toList_some]
    split
    · rename_i hv
      rw [hv]
      exact haccepted
    · exact h.append hcall
  · rintro body v heq
    cases heq
    exact hcall trivial

theorem keeps_greet {name : String} {call : List Char → SmtpCall} (h : SmtpInv s history)
    (hcall : ∀ args, ¬ (call args).Ends)
    (hgreeted : ∀ args, Greeted (history ++ [(call args, .accept)])) (args : Option (List Char)) :
    Keeps history (s.greet i name call args) := by
  cases args with
  | none => exact keeps_answer h _
  | some args =>
    simp only [SmtpSession.greet]
    split
    · exact keeps_answer h _
    · obtain ⟨-, hsender, hrcpt, hdata, hann⟩ := h.append (c := (call args, .accept)) (hcall args)
      exact keeps_asks h (hcall args) ⟨fun _ => hgreeted args, hsender, hrcpt, hdata, hann⟩

section

variable (h : SmtpInv s history) (args : Option (List Char))

include h args

theorem keeps_ehlo :
    Keeps history (s.ehlo i args) := by
  have hcall : ∀ args, ¬ (SmtpCall.ehlo args).Ends := fun _ => id
  refine keeps_greet h hcall (fun args => ⟨args, .inr ?_⟩) args
  exact mem_append_right _ (mem_singleton_self _)

theorem keeps_helo :
    Keeps history (s.helo i args) := by
  have hcall : ∀ args, ¬ (SmtpCall.helo args).Ends := fun _ => id
  refine keeps_greet h hcall (fun args => ⟨args, .inl ?_⟩) args
  exact mem_append_right _ (mem_singleton_self _)

theorem keeps_auth :
    Keeps history (s.auth args) := by
  rw [SmtpSession.auth.eq_def]
  split
  · exact keeps_answer h _
  · split
    · exact keeps_answer h _
    · split
      · exact keeps_answer h _
      · split
        · have hsame : SmtpInv { s with authStep := .user } history :=
            ⟨h.helo, h.sender, h.rcpt, h.data, h.announced⟩
          exact keeps_answer hsame _
        · exact keeps_answer h _

theorem keeps_mail :
    Keeps history (s.mail i args) := by
  rw [SmtpSession.mail.eq_def]
  split
  · exact keeps_answer h _
  · split
    · exact keeps_answer h _
    · split
      · exact keeps_answer h _
      · rename_i args
        obtain ⟨hhelo, -, hrcpt, hdata, hann⟩ := h.append (c := (.mailFrom _, .accept)) id
        exact keeps_asks h id ⟨hhelo, fun _ _ => hasSender_accepted _ _, hrcpt, hdata, hann⟩

theorem keeps_rcpt :
    Keeps history (s.rcpt i args) := by
  rw [SmtpSession.rcpt.eq_def]
  split
  · exact keeps_answer h _
  · split
    · exact keeps_answer h _
    · rename_i hsender
      split
      · exact keeps_answer h _
      · split
        · exact keeps_answer h _
        · rename_i args
          obtain ⟨hhelo, hsender', -, hdata, hann⟩ := h.append (c := (.rcpt _, .accept)) id
          refine keeps_asks h id ⟨hhelo, hsender', fun _ hfresh => ?_, hdata, hann⟩
          have hseen : s.seenSender = true := by
            cases hs : s.seenSender with
            | true => rfl
            | false =>
              rw [hs] at hsender
              exact absurd rfl hsender
          exact (h.sender hseen hfresh).rcpt _

end

theorem keeps_data (h : SmtpInv s history) (hfresh : s.seenData = false) :
    Keeps history s.data := by
  rw [SmtpSession.data]
  split
  · exact keeps_answer h _
  · rename_i hhelo
    split
    · exact keeps_answer h _
    · split
      · exact keeps_answer h _
      · rename_i hrcpt
        have hseen : s.seenHelo = true := by
          cases hs : s.seenHelo with
          | true => rfl
          | false =>
            rw [hs] at hhelo
            exact absurd rfl hhelo
        have hdata : SmtpInv { s with dataMode := true, seenData := true } history := by
          refine ⟨h.helo, ?_, ?_, fun _ => ⟨h.helo hseen, h.rcpt (Nat.pos_of_ne_zero hrcpt) hfresh⟩,
            fun _ => rfl⟩
          · rintro - ⟨⟩
          · rintro - ⟨⟩
        exact keeps_answer hdata _

/-- A line that is taken for the command `DATA`. -/
def SmtpSession.Announces (s : SmtpSession) (i : SmtpInput) : Prop :=
  s.dataMode = false ∧ s.authStep = .other ∧ caseEq (spStrtok i.msg).1 "DATA".toList = true

theorem keeps_reset (h : SmtpInv s history) (v : Verdict) :
    SmtpInv s.reset (history ++ [(.rset, v)]) := by
  refine ⟨fun hs => (h.helo hs).append _, ?_, ?_, ?_, ?_⟩
  all_goals rintro ⟨⟩

theorem keeps_command (h : SmtpInv s history)
    (hfresh : caseEq (spStrtok i.msg).1 "DATA".toList = true → s.seenData = false) :
    Keeps history (s.command i) := by
  rw [SmtpSession.command]
  generalize spStrtok i.msg = r at hfresh
  obtain ⟨cmd, args⟩ := r
  simp only at hfresh ⊢
  split
  · exact keeps_ehlo h _
  · split
    · exact keeps_auth h _
    · split
      · exact keeps_helo h _
      · split
        · exact keeps_mail h _
        · split
          · exact keeps_rcpt h _
          · split
            · rename_i hdata
              exact keeps_data h (hfresh hdata)
            · split
              · exact ⟨keeps_reset h _, nofun⟩
              · split
                · exact keeps_asks h id (h.append id)
                · split
                  · exact keeps_asks h id (h.append id)
                  · split
                    · refine ⟨?_, nofun⟩
                      rw [Option.toList_none, append_nil]
                      exact h
                    · refine ⟨?_, nofun⟩
                      rw [Option.toList_none, append_nil]
                      exact h

theorem keeps_line (h : SmtpInv s history) (hmode : s.dataMode = false)
    (hfresh : s.Announces i → s.seenData = false) : Keeps history (s.respond i) := by
  rw [SmtpSession.respond, if_neg (Bool.eq_false_iff.mp hmode)]
  split
  · have hsame : SmtpInv { s with user := strlcpy128 i.msg, authStep := .pass } history :=
      ⟨h.helo, h.sender, h.rcpt, h.data, h.announced⟩
    exact keeps_answer hsame _
  · have hsame : SmtpInv { s with pass := strlcpy128 i.msg, authStep := .other } history :=
      ⟨h.helo, h.sender, h.rcpt, h.data, h.announced⟩
    obtain ⟨hhelo, hsender, hrcpt, hdata, hann⟩ := hsame.append (c := (.auth _ _, .accept)) id
    exact keeps_asks hsame id ⟨hhelo, hsender, hrcpt, hdata, hann⟩
  · rename_i hstep
    exact keeps_command h fun hdata => hfresh ⟨hmode, hstep, hdata⟩

/-- **A message** keeps the invariant; a `DATA` comes only when none has come before. -/
theorem inv_respond (h : SmtpInv s history) (hfresh : s.Announces i → s.seenData = false) :
    SmtpInv (s.respond i).session (history ++ (s.respond i).call.toList) := by
  cases hmode : s.dataMode with
  | true =>
    -- the message is delivered
    have hseen := h.announced hmode
    rw [SmtpSession.respond, if_pos hmode]
    refine ⟨fun hs => (h.helo hs).append _, fun _ hfresh => ?_, fun _ hfresh => ?_, nofun, nofun⟩
    · exact absurd hseen (Bool.eq_false_iff.mp hfresh)
    · exact absurd hseen (Bool.eq_false_iff.mp hfresh)
  | false => exact (keeps_line h hmode hfresh).inv

/-- `DATA` is sent at most once before `RSET`. -/
def OneData (s : SmtpState) (i : SmtpInput) : Prop :=
  s.session.Announces i → s.session.seenData = false

instance (s : SmtpSession) (i : SmtpInput) : Decidable (s.Announces i) :=
  inferInstanceAs (Decidable (_ ∧ _ ∧ _))

instance (s : SmtpState) (i : SmtpInput) : Decidable (OneData s i) :=
  inferInstanceAs (Decidable (_ → _))

instance (s : SmtpState) (i : SmtpInput) : Decidable (smtpSystem.Allowed s i) :=
  inferInstanceAs (Decidable True)

def SmtpState.Sound (s : SmtpState) : Prop := SmtpInv s.session s.history

theorem smtp_reach_sound {s : SmtpState} (h : smtpSystem.Reach OneData s) : s.Sound := by
  have hstart : smtpSystem.init.Sound := SmtpInv.new
  refine h.invariant hstart fun s i s' hinv _ hone hstep => ?_
  cases hstep
  exact inv_respond hinv hone

/-- **A message is delivered** only after a greeting, and with a sender and recipients that were
accepted since the last message or `RSET`, in every run in which `DATA` is sent at most once before
`RSET`. -/
theorem delivered_prepared {s : SmtpState} (h : smtpSystem.Reach OneData s) {i : SmtpInput}
    (hone : OneData s i) {body : List Char} {v : Verdict}
    (hcall : (s.session.handle i).call = some (.data body, v)) : Prepared s.history := by
  have hinv := smtp_reach_sound h
  apply hinv.data
  by_contra hmode
  exact (keeps_line hinv (Bool.eq_false_iff.mpr hmode) hone).call body v hcall

def accepted (msg : String) : SmtpInput := ⟨msg.toList, .accept, "250 OK\r\n".toList⟩

def oneMail : List SmtpInput :=
  [accepted "HELO client", accepted "MAIL FROM:<a>", accepted "RCPT TO:<b>", accepted "DATA"]

/-- A mail is delivered. -/
theorem delivered_prepared_mail :
    ∃ s, smtpSystem.run OneData oneMail smtpSystem.init = some s ∧
      (s.session.handle (accepted "hello")).call = some (.data "hello".toList, .accept) ∧
      Prepared s.history := by
  have hrun : ((smtpSystem.run OneData oneMail smtpSystem.init).map fun s =>
      (decide (OneData s (accepted "hello")), (s.session.handle (accepted "hello")).call)) =
      some (true, some (.data "hello".toList, .accept)) := by decide +kernel
  obtain ⟨s, hs, heq⟩ := Option.map_eq_some_iff.mp hrun
  obtain ⟨hone, hcall⟩ := Prod.mk.inj heq
  have hreach : smtpSystem.Reach OneData s := System.Reach.init.run hs
  exact ⟨s, hs, hcall, delivered_prepared hreach (of_decide_eq_true hone) hcall⟩

theorem not_hasRcpt (hc : c.1.Ends) : ¬ HasRcpt (history ++ [c]) := by
  rintro ⟨old, sender, new, rcpt, last, heq, hnew⟩
  have hlast := congrArg List.getLast? heq
  rcases eq_nil_or_concat' last with rfl | ⟨init, d, rfl⟩
  · simp only [getLast?_append, getLast?_cons, getLast?_nil, Option.getD_none,
      Option.getD_some, Option.some_or, Option.some.injEq] at hlast
    rw [hlast] at hc
    exact hc
  · simp only [getLast?_append, getLast?_cons, getLast?_nil, Option.getD_none,
      Option.getD_some, Option.some_or, Option.some.injEq] at hlast
    rw [hlast] at hc
    apply hnew d _ hc
    rw [← append_assoc]
    exact mem_append_right _ (mem_singleton_self d)

/-- **A second `DATA`** is accepted after a message, with the sender and the recipient of the first.
-/
theorem second_data :
    ∃ s, smtpSystem.Reach (fun _ _ => True) s ∧
      (s.session.handle (accepted "again")).call = some (.data "again".toList, .accept) ∧
      ¬ Prepared s.history := by
  have hrun : ((smtpSystem.run (fun _ _ => True) (oneMail ++ [accepted "hello", accepted "DATA"])
      smtpSystem.init).map fun s => ((s.session.handle (accepted "again")).call,
        s.history.getLast?)) =
      some (some (.data "again".toList, .accept), some (.data "hello".toList, .accept)) := by
    decide +kernel
  obtain ⟨s, hs, hcall⟩ := Option.map_eq_some_iff.mp hrun
  obtain ⟨hcall, hlast⟩ := Prod.mk.inj hcall
  refine ⟨s, System.Reach.init.run hs, hcall, fun hprep => ?_⟩
  obtain ⟨init, hinit⟩ := List.getLast?_eq_some_iff.mp hlast
  rw [hinit] at hprep
  exact not_hasRcpt (c := (.data _, .accept)) trivial hprep.2

end Spserver
