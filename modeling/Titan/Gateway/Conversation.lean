import Titan.Gateway.Delivery
import Titan.Gateway.Outbound
import Titan.Gateway.Wire
import Titan.Schemes.Interleave

/-! What a connection says and what it is told.

    The dialogue of a descriptor remembers the lines that were processed, each with the time it was
    parsed at, and the payloads that were appended to the write buffer. The lines decide the commands
    and the rejections; the payloads are the answers to the commands and the rejections, each in their
    order. -/

namespace Titan
open Schemes
open Function (update update_self update_of_ne)

/-- A line, and the time that it was parsed at. -/
abbrev TimedLine := Text × Timestamp

namespace TimedLine

/-- The line is skipped or malformed. -/
def Void (p : TimedLine) : Prop := p.1 = [] ∨ (Protocol.parseLine p.2 p.1).type = .unknown

instance (p : TimedLine) : Decidable p.Void := inferInstanceAs (Decidable (_ ∨ _))

/-- The command of a line. -/
def commands (p : TimedLine) : List ParsedCommand :=
  if p.Void then [] else [Protocol.parseLine p.2 p.1]

/-- What a line is answered at once. -/
def rejections (p : TimedLine) : List Text :=
  if p.1 ≠ [] ∧ (Protocol.parseLine p.2 p.1).type = .unknown
  then [Protocol.formatReject 0 (Protocol.parseLine p.2 p.1).errorMsg] else []

end TimedLine

/-- What was said over the connection of a descriptor. -/
structure Dialogue where
  processed : List TimedLine := []
  sent : List Text := []

abbrev Dialogues := Fd → Dialogue

namespace Dialogue

/-- A line is processed, and answered at once if it is malformed. -/
def hear (d : Dialogue) (p : TimedLine) : Dialogue where
  processed := d.processed ++ [p]
  sent := d.sent ++ p.rejections

/-- A payload is appended to the write buffer. -/
def say (d : Dialogue) (payload : Text) : Dialogue where
  processed := d.processed
  sent := d.sent ++ [payload]

end Dialogue

/-- The line that a task processes. -/
def Task.line : Task → Option (Fd × Text)
  | .processLine fd line => some (fd, line)
  | _ => none

/-- The line that is about to be processed, if it came over the connection of `fd`. -/
def awaited (fd : Fd) : List Task → List Text
  | .processLine fd' line :: _ => if fd' = fd then [line] else []
  | _ => []

namespace Gateway
variable {n : ℕ}

/-- The dialogues after a step of the network thread. -/
def converse (g : Gateway n) (a : Answer) (ds : Dialogues) : Dialogues :=
  match g.network, a with
  | .acceptConnections :: _, .accepted (some fd) => update ds fd {}
  | .processLine fd line :: _, .clock parsed _ => update ds fd ((ds fd).hear (line, parsed))
  | .deliver resp :: _, _ =>
    match g.clients.find? resp.clientFd with
    | none => ds
    | some _ => update ds resp.clientFd ((ds resp.clientFd).say resp.payload)
  | _, _ => ds

end Gateway

def Dialogues.record {n : ℕ} (ds : Dialogues) (m : Move (Gateway n) Choice) : Dialogues :=
  match m.choice with
  | .network a => m.before.converse a ds
  | .stop | .matching _ => ds

/-! ### What one step says -/

namespace Gateway
variable {n : ℕ} {g g' : Gateway n} {a : Answer} {t : Task} {new rest : List Task}
  {clients : Clients} {log : Log} {ds : Dialogues}

/-- A line is only processed as the next task. -/
theorem Does.line_tail (h : Does g a t new clients) : ∀ x ∈ new.tail, x.line = none := by
  cases h with
  | drain batch =>
    intro x hx
    obtain ⟨resp, -, rfl⟩ := List.mem_map.mp (List.mem_of_mem_tail hx)
    rfl
  | wait events =>
    intro x hx
    obtain ⟨e, -, rfl⟩ := List.mem_map.mp (List.mem_of_mem_tail hx)
    rfl
  | ready => split_ifs <;> simp [Task.line]
  | _ => simp [Task.line]

/-- What a step of the network thread says to whom: nothing, an answer to a response, or what follows
    from a line. -/
inductive Speaks (g : Gateway n) (log : Log) (ds : Dialogues) :
    Clients → Log → Dialogues → Prop
  | silent {clients : Clients} {log' : Log} :
      (∀ fd, clients.find? fd ≠ none → g.clients.find? fd ≠ none) → log'.opened = log.opened →
      log'.admitted = log.admitted → log'.delivered = log.delivered →
      Speaks g log ds clients log' ds
  | opens {fd : Fd} : g.clients.find? fd = none →
      Speaks g log ds (g.clients.insert { fd := fd })
        { log with opened := log.opened ++ [fd] } (update ds fd {})
  | hears {fd : Fd} {line : Text} {parsed : Timestamp} {clients : Clients} {log' : Log} :
      (∀ fd, clients.find? fd ≠ none → g.clients.find? fd ≠ none) → log'.opened = log.opened →
      (∃ msgs : List IngressMessage, log'.admitted = log.admitted ++ msgs ∧
        (∀ msg ∈ msgs, msg.clientFd = fd) ∧
        msgs.map (·.command) = TimedLine.commands (line, parsed)) →
      log'.delivered = log.delivered →
      Speaks g log ds clients log' (update ds fd ((ds fd).hear (line, parsed)))
  | answers {resp : ResponseMessage} {clients : Clients} {log' : Log} :
      (∀ fd, clients.find? fd ≠ none → g.clients.find? fd ≠ none) → log'.opened = log.opened →
      log'.admitted = log.admitted → log'.delivered = log.delivered ++ [resp] →
      Speaks g log ds clients log' (update ds resp.clientFd ((ds resp.clientFd).say resp.payload))

/-- No step opens a connection that it does not accept. -/
theorem Does.keeps (h : Does g a t new clients) (ht : ∀ fd, a ≠ .accepted (some fd)) :
    ∀ fd, clients.find? fd ≠ none → g.clients.find? fd ≠ none := by
  cases h with
  | deliver hfind => exact setClient_keeps hfind rfl
  | accepted _ => exact absurd rfl (ht _)
  | chunk hfind => exact setClient_keeps hfind rfl
  | reject hfind => exact setClient_keeps hfind rfl
  | erase hfind => exact setClient_keeps hfind rfl
  | sent hfind => exact setClient_keeps hfind rfl
  | @close fd =>
    intro fd' hfd'
    by_cases hfd : fd' = fd
    · rw [hfd, Clients.find?_erase_self] at hfd'
      exact absurd rfl hfd'
    · rwa [Clients.find?_erase_of_ne hfd] at hfd'
  | cleanUp => exact fun _ hfd => absurd rfl hfd
  | _ => exact fun _ hfd => hfd

/-- What is admitted of a line. -/
theorem admits_of_line {fd : Fd} {line : Text} {parsed ingress : Timestamp}
    {client : ClientConnection} (hnet : g.network = .processLine fd line :: rest)
    (hfind : g.clients.find? fd = some client) :
    (∀ msg ∈ g.admits (.clock parsed ingress), msg.clientFd = fd) ∧
      (g.admits (.clock parsed ingress)).map (·.command) = TimedLine.commands (line, parsed) := by
  simp only [admits, hnet, hfind]
  by_cases hvoid : TimedLine.Void (line, parsed)
  · have hvoid' : line = [] ∨ (Protocol.parseLine parsed line).type = .unknown := hvoid
    rw [TimedLine.commands, if_pos hvoid, if_pos hvoid']
    simp
  · have hvoid' : ¬ (line = [] ∨ (Protocol.parseLine parsed line).type = .unknown) := hvoid
    rw [TimedLine.commands, if_neg hvoid, if_neg hvoid']
    simp [message, Clients.fd_of_find? hfind]

theorem networkStep_speaks (h : networkStep a g = some g') :
    g.Speaks log ds g'.clients (g.recordNetwork log a) (g.converse a ds) := by
  obtain ⟨⟨t, new, rest, hnet, -, hdoes⟩, -⟩ := networkStep_does h
  have hkeeps := hdoes.keeps
  have hhears : ∀ {fd : Fd} {line : Text} {parsed ingress : Timestamp},
      t = .processLine fd line → a = .clock parsed ingress →
      g.Speaks log ds g'.clients (g.recordNetwork log a) (g.converse a ds) := by
    rintro fd line parsed ingress rfl rfl
    obtain ⟨client, hfind⟩ : ∃ client, g.clients.find? fd = some client := by
      unfold networkStep at h
      rw [hnet] at h
      cases hfind : g.clients.find? fd with
      | none =>
        dsimp only at h
        rw [hfind] at h
        cases h
      | some client => exact ⟨client, rfl⟩
    have hrecord : g.recordNetwork log (.clock parsed ingress) =
        { log with admitted := log.admitted ++ g.admits (.clock parsed ingress) } := by
      unfold recordNetwork
      rw [hnet]
    have hconverse : g.converse (.clock parsed ingress) ds =
        update ds fd ((ds fd).hear (line, parsed)) := by
      unfold converse
      rw [hnet]
    rw [hrecord, hconverse]
    exact .hears (hkeeps (by simp)) rfl ⟨_, rfl, admits_of_line hnet hfind⟩ rfl
  generalize hclients : g'.clients = clients at hdoes hkeeps hhears
  cases hdoes with
  | @deliver resp client hfind =>
    have hrecord : g.recordNetwork log .none = { log with
        handled := log.handled ++ [resp], delivered := log.delivered ++ [resp] } := by
      simp only [recordNetwork, hnet, hfind]
    have hconverse : g.converse .none ds =
        update ds resp.clientFd ((ds resp.clientFd).say resp.payload) := by
      simp only [converse, hnet, hfind]
    rw [hrecord, hconverse]
    exact .answers (hkeeps (by simp)) rfl rfl rfl
  | @drop resp hgone =>
    have hrecord : g.recordNetwork log .none = { log with handled := log.handled ++ [resp] } := by
      simp only [recordNetwork, hnet, hgone]
    have hconverse : g.converse .none ds = ds := by simp only [converse, hnet, hgone]
    rw [hrecord, hconverse]
    exact .silent (hkeeps (by simp)) rfl rfl rfl
  | @accepted fd hnew =>
    have hrecord : g.recordNetwork log (.accepted (some fd)) =
        { log with opened := log.opened ++ [fd] } := by simp only [recordNetwork, hnet]
    have hconverse : g.converse (.accepted (some fd)) ds = update ds fd {} := by
      simp only [converse, hnet]
    rw [hrecord, hconverse]
    exact .opens hnew
  | skip | reject _ | command => exact hhears rfl rfl
  | _ =>
    simp only [recordNetwork, converse, hnet]
    exact .silent (hkeeps (by simp)) rfl rfl rfl

end Gateway

/-! ### The dialogues of a run -/

/-- The payloads that were appended for a descriptor because of a response. -/
def answersTo (log : Log) (fd : Fd) : List Text :=
  (log.delivered.filter (·.clientFd = fd)).map (·.payload)

/-- The commands that were admitted from a descriptor. -/
def commandsFrom (log : Log) (fd : Fd) : List ParsedCommand :=
  (log.admitted.filter (·.clientFd = fd)).map (·.command)

/-- A dialogue as far as the log goes: the lines gave the commands, and what was sent is the answers
    and the rejections. -/
structure Dialogue.Follows (d : Dialogue) (log : Log) (fd : Fd) : Prop where
  commands : commandsFrom log fd = d.processed.flatMap TimedLine.commands
  sent : Interleaved (answersTo log fd) (d.processed.flatMap TimedLine.rejections) d.sent

namespace Dialogue.Follows
variable {d : Dialogue} {log log' : Log} {fd : Fd}

theorem congr (h : d.Follows log fd) (ha : commandsFrom log' fd = commandsFrom log fd)
    (hd : answersTo log' fd = answersTo log fd) : d.Follows log' fd := by
  refine ⟨?_, ?_⟩
  · rw [ha, h.commands]
  · rw [hd]
    exact h.sent

theorem hear {p : TimedLine} (h : d.Follows log fd)
    (ha : commandsFrom log' fd = commandsFrom log fd ++ p.commands)
    (hd : answersTo log' fd = answersTo log fd) : (d.hear p).Follows log' fd := by
  refine ⟨?_, ?_⟩
  · simp [ha, h.commands, Dialogue.hear]
  · rw [hd, Dialogue.hear, List.flatMap_append, List.flatMap_singleton]
    exact h.sent.append_right _

theorem say {payload : Text} (h : d.Follows log fd) (ha : commandsFrom log' fd = commandsFrom log fd)
    (hd : answersTo log' fd = answersTo log fd ++ [payload]) : (d.say payload).Follows log' fd := by
  refine ⟨?_, ?_⟩
  · rw [ha, h.commands]
    rfl
  · rw [hd]
    exact h.sent.append_left _

/-- Nothing was said yet. -/
theorem fresh (ha : commandsFrom log fd = []) (hd : answersTo log fd = []) :
    Dialogue.Follows {} log fd := by
  refine ⟨ha, ?_⟩
  rw [hd]
  exact .nil

end Dialogue.Follows

/-- As long as no descriptor is used twice, the dialogues of the open connections go as far as the
    log. -/
structure Spoken {n : ℕ} (initial : PoolOrderBook) (g : Gateway n) (log : Log) (ds : Dialogues) :
    Prop where
  tally : Tally initial g log
  follows : log.opened.Nodup → ∀ fd, g.clients.find? fd ≠ none → (ds fd).Follows log fd

namespace Spoken
variable {n : ℕ} {initial : PoolOrderBook} {g g' : Gateway n} {log : Log} {ds : Dialogues}

theorem network {a : Answer} (h : Spoken initial g log ds)
    (hstep : Gateway.networkStep a g = some g') :
    Spoken initial g' (g.recordNetwork log a) (g.converse a ds) := by
  refine ⟨h.tally.network (Gateway.networkStep_move hstep), ?_⟩
  have hspeaks : g.Speaks log ds g'.clients (g.recordNetwork log a) (g.converse a ds) :=
    Gateway.networkStep_speaks hstep
  generalize g.recordNetwork log a = log', g.converse a ds = ds', g'.clients = clients at hspeaks
  intro hnd fd hfd
  cases hspeaks with
  | silent hkeeps ho ha hd =>
    refine (h.follows (ho ▸ hnd) fd (hkeeps fd hfd)).congr ?_ ?_
    · rw [commandsFrom, ha, commandsFrom]
    · rw [answersTo, hd, answersTo]
  | @opens fd' hnew =>
    obtain ⟨hnd, -, hdisj⟩ := List.nodup_append.mp hnd
    by_cases hsame : fd = fd'
    · -- a descriptor that was never open before
      have hnever : fd ∉ log.opened := fun hmem => hdisj fd hmem fd' (by simp) hsame
      rw [hsame, update_self, ← hsame]
      refine .fresh ?_ ?_
      · refine List.map_eq_nil_iff.mpr (List.filter_eq_nil_iff.mpr fun msg hmsg => ?_)
        intro he
        exact hnever (of_decide_eq_true he ▸ h.tally.origins msg hmsg)
      · refine List.map_eq_nil_iff.mpr (List.filter_eq_nil_iff.mpr fun resp hresp => ?_)
        intro he
        exact hnever (of_decide_eq_true he ▸
          h.tally.opened_of_handled (h.tally.sublist.subset hresp))
    · rw [update_of_ne hsame]
      rw [Clients.find?_insert_of_ne hsame] at hfd
      exact (h.follows hnd fd hfd).congr rfl rfl
  | @hears fd' line parsed clients log' hkeeps ho hadmits hd =>
    obtain ⟨msgs, ha, hfds, hcommands⟩ := hadmits
    have hanswers : answersTo log' fd = answersTo log fd := by rw [answersTo, hd, answersTo]
    have hold := h.follows (ho ▸ hnd) fd (hkeeps fd hfd)
    by_cases hsame : fd = fd'
    · rw [hsame, update_self, ← hsame]
      refine hold.hear ?_ hanswers
      have hall : msgs.filter (·.clientFd = fd) = msgs :=
        List.filter_eq_self.mpr fun msg hmsg => by simp [hfds msg hmsg, hsame]
      rw [commandsFrom, ha, List.filter_append, List.map_append, hall, hcommands, commandsFrom]
    · rw [update_of_ne hsame]
      refine hold.congr ?_ hanswers
      have hnone : msgs.filter (·.clientFd = fd) = [] :=
        List.filter_eq_nil_iff.mpr fun msg hmsg => by simp [hfds msg hmsg, Ne.symm hsame]
      rw [commandsFrom, ha, List.filter_append, hnone, List.append_nil, commandsFrom]
  | @answers resp clients log' hkeeps ho ha hd =>
    have hcommands : commandsFrom log' fd = commandsFrom log fd := by
      rw [commandsFrom, ha, commandsFrom]
    have hold := h.follows (ho ▸ hnd) fd (hkeeps fd hfd)
    by_cases hsame : fd = resp.clientFd
    · rw [hsame, update_self, ← hsame]
      refine hold.say hcommands ?_
      rw [answersTo, hd, List.filter_append, List.map_append, answersTo]
      simp [hsame]
    · rw [update_of_ne hsame]
      refine hold.congr hcommands ?_
      rw [answersTo, hd, List.filter_append, answersTo]
      simp [Ne.symm hsame]

theorem move {c : Choice} (h : Spoken initial g log ds) (hstep : Gateway.step c g = some g') :
    Spoken initial g' (log.record ⟨g, c, g'⟩) (ds.record ⟨g, c, g'⟩) := by
  have htally := h.tally.move hstep
  cases c with
  | stop =>
    cases hstep
    exact ⟨htally, h.follows⟩
  | network a => exact h.network hstep
  | matching popped =>
    refine ⟨htally, fun hnd fd hfd => ?_⟩
    have hmove : g.MatchingMove log g' (g.recordMatching log) := Gateway.matchingStep_move hstep
    have hlog : (g.recordMatching log).opened = log.opened ∧
        (g.recordMatching log).admitted = log.admitted ∧
        (g.recordMatching log).delivered = log.delivered := by
      unfold Gateway.recordMatching
      split <;> exact ⟨rfl, rfl, rfl⟩
    obtain ⟨ho, ha, hd⟩ := hlog
    have hnd' : (g.recordMatching log).opened.Nodup := hnd
    rw [hmove.clients_eq] at hfd
    rw [ho] at hnd'
    refine (h.follows hnd' fd hfd).congr ?_ ?_
    · show ((g.recordMatching log).admitted.filter _).map _ = _
      rw [ha, commandsFrom]
    · show ((g.recordMatching log).delivered.filter _).map _ = _
      rw [hd, answersTo]

end Spoken

/-- The lines that were passed on are those that were processed, and the one that is processed
    next. -/
structure Heard {n : ℕ} (g : Gateway n) (ins : Intakes) (ds : Dialogues) : Prop where
  first : ∀ t ∈ g.network.tail, t.line = none
  lines : ∀ fd, (ins fd).lines = (ds fd).processed.map Prod.fst ++ awaited fd g.network

theorem awaited_of_line {fd : Fd} {ts : List Task} (h : ∀ t ∈ ts, t.line = none) :
    awaited fd ts = [] := by
  unfold awaited
  split
  · cases h _ List.mem_cons_self
  · rfl

namespace Heard
variable {n : ℕ} {g g' : Gateway n} {ins : Intakes} {ds : Dialogues}

theorem tail {a : Answer} (h : Heard g ins ds) (hstep : Gateway.networkStep a g = some g') :
    ∀ t ∈ g'.network.tail, t.line = none := by
  obtain ⟨⟨t, new, rest, hnet, hnet', hdoes⟩, -⟩ := Gateway.networkStep_does hstep
  have hrest := h.first
  rw [hnet, List.tail_cons] at hrest
  intro x hx
  rw [hnet'] at hx
  cases new with
  | nil => exact hrest x (List.mem_of_mem_tail hx)
  | cons y ys => exact (List.mem_append.mp hx).elim (hdoes.line_tail x) (hrest x)

theorem network {a : Answer} (h : Heard g ins ds) (hstep : Gateway.networkStep a g = some g') :
    Heard g' (g.takeIn a ins) (g.converse a ds) := by
  refine ⟨h.tail hstep, fun fd => ?_⟩
  obtain ⟨⟨t, new, rest, hnet, hnet', hdoes⟩, -⟩ := Gateway.networkStep_does hstep
  have hrest := h.first
  have hat := h.lines fd
  rw [hnet, List.tail_cons] at hrest
  rw [hnet] at hat
  rw [hnet']
  -- a step that takes no line and hears none
  have haside : ∀ {ins' : Intakes} {ds' : Dialogues}, t.line = none → (∀ x ∈ new, x.line = none) →
      (ins' fd).lines = (ins fd).lines → (ds' fd).processed = (ds fd).processed →
      (ins' fd).lines = (ds' fd).processed.map Prod.fst ++ awaited fd (new ++ rest) := by
    intro ins' ds' ht hnew hins hds
    have hold : awaited fd (t :: rest) = [] :=
      awaited_of_line (List.forall_mem_cons.mpr ⟨ht, hrest⟩)
    rw [hins, hds, hat, hold, awaited_of_line fun x hx =>
      (List.mem_append.mp hx).elim (hnew x) (hrest x)]
  have hmap : ∀ {α : Type} {f : α → Task} (xs : List α), (∀ x, (f x).line = none) →
      ∀ x ∈ xs.map f, x.line = none := by
    intro α f xs hf x hx
    obtain ⟨y, -, rfl⟩ := List.mem_map.mp hx
    exact hf y
  have hins : ∀ (fd' : Fd) (i : Intake), i.lines = (ins fd').lines →
      (update ins fd' i fd).lines = (ins fd).lines := by
    intro fd' i hi
    by_cases hsame : fd = fd'
    · rw [hsame, update_self, hi]
    · rw [update_of_ne hsame]
  generalize g'.clients = clients at hdoes
  cases hdoes with
  | drain batch =>
    simp only [Gateway.takeIn, Gateway.converse, hnet]
    exact haside rfl (hmap batch fun _ => rfl) rfl rfl
  | wait events =>
    simp only [Gateway.takeIn, Gateway.converse, hnet]
    exact haside rfl (hmap events fun _ => rfl) rfl rfl
  | ready =>
    simp only [Gateway.takeIn, Gateway.converse, hnet]
    exact haside rfl (by split_ifs <;> simp [Task.line]) rfl rfl
  | @deliver resp client hfind =>
    simp only [Gateway.takeIn, Gateway.converse, hnet, hfind]
    refine haside rfl (by simp [Task.line]) rfl ?_
    by_cases hsame : fd = resp.clientFd
    · rw [hsame, update_self]
      rfl
    · rw [update_of_ne hsame]
  | drop hgone =>
    simp only [Gateway.takeIn, Gateway.converse, hnet, hgone]
    exact haside rfl nofun rfl rfl
  | @accepted fd' hnew =>
    simp only [Gateway.takeIn, Gateway.converse, hnet]
    by_cases hsame : fd = fd'
    · rw [hsame, update_self, update_self]
      rfl
    · rw [update_of_ne hsame, update_of_ne hsame]
      exact hat
  | readUnknown | read | chunk =>
    simp only [Gateway.takeIn, Gateway.converse, hnet]
    exact haside rfl (by simp [Task.line]) (hins _ _ rfl) rfl
  | @line fd' client hfind hmem =>
    simp only [Gateway.takeIn, Gateway.converse, hnet, hfind, if_pos hmem]
    have hbefore : (ins fd).lines = (ds fd).processed.map Prod.fst := by
      rw [hat]
      exact List.append_nil _
    by_cases hsame : fd = fd'
    · rw [hsame] at hbefore ⊢
      rw [update_self]
      simp [awaited, hbefore]
    · rw [update_of_ne hsame, hbefore]
      simp [awaited, Ne.symm hsame]
  | @noLine fd' client hfind hmem =>
    simp only [Gateway.takeIn, Gateway.converse, hnet, hfind, if_neg hmem]
    exact haside rfl nofun rfl rfl
  | @skip fd' _ _ | @reject fd' _ _ _ _ _ _ | @command fd' _ _ _ _ =>
    simp only [Gateway.takeIn, Gateway.converse, hnet]
    rw [awaited_of_line (by simpa [Task.line] using hrest)]
    by_cases hsame : fd = fd'
    · rw [hsame] at hat ⊢
      rw [update_self]
      simpa [awaited, Dialogue.hear] using hat
    · rw [update_of_ne hsame]
      simpa [awaited, Ne.symm hsame] using hat
  | _ =>
    simp only [Gateway.takeIn, Gateway.converse, hnet]
    exact haside rfl (by simp [Task.line]) rfl rfl

theorem move {c : Choice} (h : Heard g ins ds) (hstep : Gateway.step c g = some g') :
    Heard g' (ins.record ⟨g, c, g'⟩) (ds.record ⟨g, c, g'⟩) := by
  cases c with
  | stop =>
    cases hstep
    exact ⟨h.first, h.lines⟩
  | network a => exact h.network hstep
  | matching popped =>
    have hmove : g.MatchingMove {} g' (g.recordMatching {}) := Gateway.matchingStep_move hstep
    have hnet := hmove.network_eq
    refine ⟨?_, fun fd => ?_⟩
    · rw [hnet]
      exact h.first
    · rw [hnet]
      exact h.lines fd

end Heard

/-- What was appended to the write buffers is what was sent. -/
def Appended (outs : Outflows) (ds : Dialogues) : Prop :=
  ∀ fd, (outs fd).appended = (ds fd).sent.flatten

namespace Appended
variable {n : ℕ} {g g' : Gateway n} {outs : Outflows} {ds : Dialogues}

theorem network {a : Answer} (h : Appended outs ds) (hstep : Gateway.networkStep a g = some g') :
    Appended (g.sendOut a outs) (g.converse a ds) := by
  obtain ⟨⟨t, new, rest, hnet, -, hdoes⟩, -⟩ := Gateway.networkStep_does hstep
  intro fd
  -- both sides grow by the same texts
  have hgrow : ∀ (fd' : Fd) (o : Outflow) (d : Dialogue), o.appended = d.sent.flatten →
      (update outs fd' o fd).appended = (update ds fd' d fd).sent.flatten := by
    intro fd' o d ho
    by_cases hsame : fd = fd'
    · rw [hsame, update_self, update_self, ho]
    · rw [update_of_ne hsame, update_of_ne hsame, h fd]
  have hhears : ∀ {fd' : Fd} {line : Text} {parsed ingress : Timestamp},
      t = .processLine fd' line → a = .clock parsed ingress →
      (g.sendOut a outs fd).appended = (g.converse a ds fd).sent.flatten := by
    rintro fd' line parsed ingress rfl rfl
    simp only [Gateway.sendOut, Gateway.output, Gateway.converse, hnet]
    by_cases hreject : line ≠ [] ∧ (Protocol.parseLine parsed line).type = .unknown
    · rw [if_pos hreject]
      refine hgrow _ _ _ ?_
      rw [Dialogue.hear, TimedLine.rejections, if_pos hreject]
      simp [h fd']
    · rw [if_neg hreject, Dialogue.hear, TimedLine.rejections, if_neg hreject, List.append_nil]
      by_cases hsame : fd = fd'
      · rw [hsame, update_self]
        exact h fd'
      · rw [update_of_ne hsame]
        exact h fd
  generalize g'.clients = clients at hdoes
  cases hdoes with
  | @deliver resp client hfind =>
    simp only [Gateway.sendOut, Gateway.output, Gateway.converse, hnet, hfind, Option.map_some]
    exact hgrow _ _ _ (by simp [Dialogue.say, h resp.clientFd])
  | drop hgone =>
    simp only [Gateway.sendOut, Gateway.output, Gateway.converse, hnet, hgone, Option.map_none]
    exact h fd
  | accepted _ =>
    simp only [Gateway.sendOut, Gateway.output, Gateway.converse, hnet]
    exact hgrow _ _ _ rfl
  | skip | reject _ | command => exact hhears rfl rfl
  | @sent fd' client count hfind =>
    simp only [Gateway.sendOut, Gateway.output, Gateway.converse, hnet]
    by_cases hsame : fd = fd'
    · rw [hsame, update_self]
      exact h fd'
    · rw [update_of_ne hsame]
      exact h fd
  | _ =>
    simp only [Gateway.sendOut, Gateway.output, Gateway.converse, hnet]
    exact h fd

theorem move {c : Choice} (h : Appended outs ds) (hstep : Gateway.step c g = some g') :
    Appended (outs.record ⟨g, c, g'⟩) (ds.record ⟨g, c, g'⟩) := by
  cases c with
  | network a => exact h.network hstep
  | stop | matching _ => exact h

end Appended

/-! ### The stream of a connection -/

/-- What a run is remembered by. -/
structure Minutes where
  log : Log := {}
  intakes : Intakes := fun _ => {}
  outflows : Outflows := fun _ => {}
  dialogues : Dialogues := fun _ => {}

def Minutes.record {n : ℕ} (m : Minutes) (move : Move (Gateway n) Choice) : Minutes where
  log := m.log.record move
  intakes := m.intakes.record move
  outflows := m.outflows.record move
  dialogues := m.dialogues.record move

/-- The minutes keep each memory by itself. -/
theorem foldl_minutes {n : ℕ} : ∀ (ms : List (Move (Gateway n) Choice)) (m : Minutes),
    ms.foldl Minutes.record m =
      ⟨ms.foldl Log.record m.log, ms.foldl Intakes.record m.intakes,
        ms.foldl Outflows.record m.outflows, ms.foldl Dialogues.record m.dialogues⟩
  | [], _ => rfl
  | move :: ms, m => foldl_minutes ms (m.record move)

/-- The minutes account for the gateway. -/
structure Minuted {n : ℕ} (initial : PoolOrderBook) (g : Gateway n) (m : Minutes) : Prop where
  spoken : Spoken initial g m.log m.dialogues
  heard : Heard g m.intakes m.dialogues
  appended : Appended m.outflows m.dialogues

theorem Minuted.of_trace {queueCapacity : UInt64} {initial : PoolOrderBook} {serverFd : Fd}
    {ms : List (Move (Gateway _) Choice)} {g : Gateway _}
    (h : Trace Gateway.step (.start queueCapacity initial serverFd) ms g) :
    Minuted initial g (ms.foldl Minutes.record {}) := by
  refine h.fold_invariant (P := fun _ => True) _ ?_ ?_ fun _ _ => trivial
  · intro g m c g' hm hstep _
    exact ⟨hm.spoken.move hstep, hm.heard.move hstep, hm.appended.move hstep⟩
  · exact ⟨⟨.start .., fun _ _ hfd => absurd rfl hfd⟩, ⟨nofun, fun _ => rfl⟩, fun _ => rfl⟩

/-- The lines that the intakes have are those that were processed, one task each, and the one that is
    processed next. -/
theorem lines_processed {queueCapacity : UInt64} {initial : PoolOrderBook} {serverFd : Fd}
    {ms : List (Move (Gateway _) Choice)} {g : Gateway _}
    (h : Trace Gateway.step (.start queueCapacity initial serverFd) ms g) (fd : Fd) :
    (ms.foldl Intakes.record (fun _ => {}) fd).lines =
      (ms.foldl Dialogues.record (fun _ => {}) fd).processed.map Prod.fst ++
        awaited fd g.network := by
  have hheard := (Minuted.of_trace h).heard
  rw [foldl_minutes] at hheard
  exact hheard.lines fd

/-- The payloads of the responses to a descriptor. -/
def payloadsTo (responses : List ResponseMessage) (fd : Fd) : List Text :=
  (responses.filter (·.clientFd = fd)).map (·.payload)

/-- Between two passes of the loop of `start`, with nothing under way. -/
def Gateway.Idle {n : ℕ} (g : Gateway n) : Prop :=
  g.network = [.whileRunning] ∧ g.ingress.items = [] ∧ g.responses.items = [] ∧
    g.matching.batch = [] ∧ g.matching.pending = []

/-- All that is said over the open connection of `fd`, from the bytes that were read to those that
    were written. -/
structure Conversation {n : ℕ} (initial : PoolOrderBook) (g : Gateway n) (m : Minutes) (fd : Fd)
    (client : ClientConnection) : Prop where
  /-- The lines that were processed are the first of the stream. -/
  lines : (m.dialogues fd).processed.map Prod.fst <+:
    (frames '\n' (m.intakes fd).received).1.map chomp
  /-- The commands of the connection are those of its lines. -/
  commands : commandsFrom m.log fd = (m.dialogues fd).processed.flatMap TimedLine.commands
  /-- It was sent answers to its own commands, in their order. -/
  answers : answersTo m.log fd <+: payloadsTo (runCommands initial m.log.admitted).1 fd
  /-- The bytes that were written and those that wait are these answers and the rejections of its
      malformed lines, each in their order. -/
  stream : ∃ sent, Interleaved (answersTo m.log fd)
      ((m.dialogues fd).processed.flatMap TimedLine.rejections) sent ∧
    (m.outflows fd).accepted ++ client.writeBuffer = sent.flatten
  /-- They are reports on one line each. -/
  text : Report.IsText ((m.outflows fd).accepted ++ client.writeBuffer)
  /-- When nothing is under way, every line was processed and every command answered. -/
  idle : g.Idle → (m.dialogues fd).processed.map Prod.fst =
      (frames '\n' (m.intakes fd).received).1.map chomp ∧
    answersTo m.log fd = payloadsTo (runCommands initial m.log.admitted).1 fd

theorem isText_rejections (p : TimedLine) : ∀ text ∈ p.rejections, Report.IsText text := by
  intro text htext
  rw [TimedLine.rejections] at htext
  split_ifs at htext
  · rw [List.mem_singleton.mp htext]
    exact .reject 0 (newline_notMem_errorMsg p.2 p.1)
  · cases htext

/-- What the commands are answered is text. -/
theorem isText_runCommands : ∀ {book : PoolOrderBook} {msgs : List IngressMessage}
    {resp : ResponseMessage}, resp ∈ (runCommands book msgs).1 → Report.IsText resp.payload
  | _, [], _, h => nomatch h
  | book, msg :: msgs, resp, h => by
    rcases List.mem_append.mp h with h | h
    · rw [IngressMessage.respond] at h
      split_ifs at h
      · cases h
      · rw [List.mem_singleton.mp h]
        exact isText_payload book msg
    · exact isText_runCommands h

theorem isText_flatten : ∀ {texts : List Text}, (∀ text ∈ texts, Report.IsText text) →
    Report.IsText texts.flatten
  | [], _ => .nil
  | text :: texts, h => by
    obtain ⟨ht, hts⟩ := List.forall_mem_cons.mp h
    exact ht.append (isText_flatten hts)

theorem Conversation.of_trace {queueCapacity : UInt64} {initial : PoolOrderBook} {serverFd : Fd}
    {ms : List (Move (Gateway _) Choice)} {g : Gateway _}
    (h : Trace Gateway.step (.start queueCapacity initial serverFd) ms g)
    (hnd : (ms.foldl Log.record {}).opened.Nodup) {fd : Fd} {client : ClientConnection}
    (hopen : g.clients.find? fd = some client) :
    Conversation initial g (ms.foldl Minutes.record {}) fd client := by
  have hm := Minuted.of_trace h
  rw [foldl_minutes] at hm ⊢
  obtain ⟨⟨htally, hfollows⟩, hheard, happended⟩ := hm
  have hne : g.clients.find? fd ≠ none := by
    rw [hopen]
    exact Option.some_ne_none client
  obtain ⟨hcommands, hsent⟩ := hfollows hnd fd hne
  obtain ⟨hlines, hidle⟩ := framing queueCapacity initial serverFd h hopen
  have hheardLines := hheard.lines fd
  have hdelivered := htally.delivered hnd fd hne
  -- what was handled is the first of what was answered
  have hanswers : (ms.foldl Log.record {}).handled <+:
      (runCommands initial (ms.foldl Log.record {}).admitted).1 := by
    rw [htally.commands, List.append_assoc, List.append_assoc, runCommands_append, htally.responses,
      List.append_assoc, List.append_assoc, List.append_assoc]
    exact List.prefix_append ..
  have hstream := (Streams.of_trace h fd client hopen).trans (happended fd)
  refine ⟨?_, hcommands, ?_, ⟨_, hsent, hstream⟩, ?_, ?_⟩
  · refine List.IsPrefix.trans ?_ hlines
    rw [hheardLines]
    exact List.prefix_append ..
  · rw [answersTo, hdelivered]
    exact (hanswers.filter _).map _
  · rw [hstream]
    refine isText_flatten fun text htext => ?_
    rcases hsent.mem_iff.mp htext with htext | htext
    · obtain ⟨resp, hresp, rfl⟩ := List.mem_map.mp htext
      have hmem := htally.sublist.subset (List.mem_of_mem_filter hresp)
      exact isText_runCommands (hanswers.subset hmem)
    · obtain ⟨p, -, hp⟩ := List.mem_flatMap.mp htext
      exact isText_rejections p text hp
  · rintro ⟨hnet, hingress, hresponses, hbatch, hpending⟩
    have hall : (ms.foldl Log.record {}).admitted = (ms.foldl Log.record {}).executed := by
      rw [htally.commands, hbatch, hingress, hnet]
      simp [pushing]
    have hhandled := htally.responses
    rw [← hall, hresponses, hpending, hnet] at hhandled
    refine ⟨?_, ?_⟩
    · rw [hnet] at hheardLines hidle
      rw [← (hidle (by simp [Task.reader])).1, hheardLines]
      exact (List.append_nil _).symm
    · rw [answersTo, hdelivered, payloadsTo, hhandled]
      simp [delivering]

/-- In every run that opens no descriptor twice, each open connection has the whole conversation: its
    stream of bytes, cut into lines, gives its commands and its rejections, and the stream that it is
    sent is the answers to its commands interleaved with these rejections. -/
theorem conversation (queueCapacity : UInt64) (initial : PoolOrderBook) (serverFd : Fd)
    {ms : List (Move (Gateway _) Choice)} {g : Gateway _}
    (h : Trace Gateway.step (.start queueCapacity initial serverFd) ms g)
    (hnd : (ms.foldl Log.record {}).opened.Nodup) {fd : Fd} {client : ClientConnection}
    (hopen : g.clients.find? fd = some client) :
    Conversation initial g (ms.foldl Minutes.record {}) fd client :=
  .of_trace h hnd hopen

/-- A client that sends one malformed line and one order. -/
def mixedLines : List Choice := clientSends "A\nNEW B 1 100 2\n" ++ rejectLine ++ nextLine ++ pushLine ++
  [.network .none] ++ executeOne ++ [.matching 0, .network (.popped 1), .network .none]

theorem mixedLines_plays : (play Gateway.step (Gateway.start 1 (.ctor 1) 3) mixedLines).isSome := by
  decide

theorem conversation_mixedLines :
    let g := (play Gateway.step (Gateway.start 1 (.ctor 1) 3) mixedLines).get mixedLines_plays
    let m := (moves Gateway.step (.start 1 (.ctor 1) 3) mixedLines).foldl Minutes.record {}
    (m.outflows 5).appended = "REJECT 0 UNKNOWN_COMMAND\nACK 1 2\n".toList ∧
    ∃ client, g.clients.find? 5 = some client ∧ Conversation (.ctor 1) g m 5 client := by
  refine ⟨by decide, _, (Option.some_get (by decide)).symm, ?_⟩
  exact conversation 1 (.ctor 1) 3 (.of_play (Option.some_get _).symm) (by decide)
    (Option.some_get _).symm

end Titan
