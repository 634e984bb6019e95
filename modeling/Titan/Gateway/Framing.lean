import Titan.Gateway.Deadlock
import Titan.Gateway.Tasks
import Titan.Schemes.Frames

/-! From the bytes of a connection to its lines.

    The intake of a descriptor remembers what was read from its connection and which lines were
    passed on. What was read is the lines that were passed on, with their ends, and the read buffer
    from the end of the line that is being processed. -/

namespace Titan
open Schemes
open Function (update)

/-- A line without a `'\r'` at its end. -/
def chomp (line : Text) : Text := if line.getLast? = some '\r' then line.dropLast else line

/-- What was read from the connection of a descriptor, what of it in the last call of
    `handle_client_read`, and the lines that were passed to `process_client_line`. -/
structure Intake where
  received : Text := []
  call : Text := []
  lines : List Text := []

abbrev Intakes := Fd → Intake

namespace Gateway
variable {n : ℕ}

/-- The intakes after a step of the network thread. -/
def takeIn (g : Gateway n) (a : Answer) (ins : Intakes) : Intakes :=
  match g.network, a with
  | .acceptConnections :: _, .accepted (some fd) => update ins fd {}
  | .clientRead fd :: _, _ => update ins fd { ins fd with call := [] }
  | .readChunks fd :: _, .read (.data bytes) => update ins fd { ins fd with
      received := (ins fd).received ++ bytes,
      call := (ins fd).call ++ bytes }
  | .lines fd :: _, _ =>
    match g.clients.find? fd with
    | none => ins
    | some client =>
      if '\n' ∈ client.readBuffer then update ins fd { ins fd with
        lines := (ins fd).lines ++
          [lineAt client.readBuffer (client.readBuffer.idxOf '\n')] }
      else ins
  | _, _ => ins

end Gateway

def Intakes.record {n : ℕ} (ins : Intakes) (m : Move (Gateway n) Choice) : Intakes :=
  match m.choice with
  | .network a => m.before.takeIn a ins
  | .stop | .matching _ => ins

/-! ### One read at a time -/

namespace Task

/-- The connection that a task reads from or closes. -/
def reader : Task → Option Fd
  | .readChunks fd | .lines fd | .eraseLine fd _ | .closeConnection fd => some fd
  | _ => none

/-- A task of the reading of a connection. -/
def reading : Task → Bool
  | .readChunks _ | .lines _ | .eraseLine _ _ => true
  | _ => false

end Task

/-- Nothing reads or closes a connection. -/
def NoReader (ts : List Task) : Prop := ∀ t ∈ ts, t.reader = none

/-- What reads is in front of all that may start to read. -/
def Sole : List Task → Prop
  | [] => True
  | t :: ts => Sole ts ∧
    match t with
    | .whileRunning | .epollWait | .event _ | .clientRead _ | .readChunks _ | .lines _ => NoReader ts
    | .eraseLine fd _ => ∃ us, ts = .lines fd :: us
    | _ => True

/-- How many bytes of a read buffer belong to the line that is being processed. -/
def toErase (fd : Fd) : List Task → ℕ
  | [] => 0
  | .eraseLine fd' count :: ts => if fd' = fd then count else toErase fd ts
  | _ :: ts => toErase fd ts

theorem toErase_of_idle {fd : Fd} : ∀ {ts : List Task}, (∀ t ∈ ts, t.reader ≠ some fd) →
    toErase fd ts = 0
  | [], _ => rfl
  | t :: ts, h => by
    obtain ⟨ht, hts⟩ := List.forall_mem_cons.mp h
    have ih := toErase_of_idle hts
    cases t with
    | eraseLine fd' count =>
      have hne : fd' ≠ fd := fun he => ht (congrArg some he)
      rw [toErase, if_neg hne, ih]
    | _ => exact ih

theorem toErase_of_noReader {fd : Fd} {ts : List Task} (h : NoReader ts) : toErase fd ts = 0 := by
  refine toErase_of_idle fun t ht => ?_
  rw [h t ht]
  exact nofun

/-- A reader in front of its bytes has nothing to erase. -/
theorem toErase_reading {fd : Fd} {t : Task} {ts : List Task} (h : NoReader ts)
    (ht : t = .readChunks fd ∨ t = .lines fd) : toErase fd (t :: ts) = 0 := by
  have hskip : toErase fd (t :: ts) = toErase fd ts := by
    rcases ht with rfl | rfl <;> rfl
  rw [hskip, toErase_of_noReader h]

/-- Tasks that do not read are of no account. -/
theorem toErase_append {fd : Fd} {us : List Task} : ∀ {ts : List Task},
    (∀ t ∈ ts, t.reading = false) → toErase fd (ts ++ us) = toErase fd us
  | [], _ => rfl
  | t :: ts, h => by
    obtain ⟨ht, hts⟩ := List.forall_mem_cons.mp h
    have ih : toErase fd (ts ++ us) = toErase fd us := toErase_append hts
    cases t with
    | eraseLine fd' count => cases ht
    | _ => exact ih

namespace Sole

theorem append {us : List Task} (hus : Sole us) (hno : NoReader us) : ∀ {ts : List Task}, Sole ts →
    Sole (ts ++ us)
  | [], _ => hus
  | t :: ts, h => by
    obtain ⟨hts, ht⟩ := h
    have hnone : NoReader ts → NoReader (ts ++ us) := by
      intro hno' x hx
      rcases List.mem_append.mp hx with hx | hx
      · exact hno' x hx
      · exact hno x hx
    refine ⟨append hus hno hts, ?_⟩
    cases t with
    | whileRunning | epollWait | event _ | clientRead _ | readChunks _ | lines _ => exact hnone ht
    | eraseLine fd count =>
      obtain ⟨vs, rfl⟩ := ht
      exact ⟨vs ++ us, rfl⟩
    | _ => trivial

theorem events : ∀ es : List ReadyEvent, Sole (es.map .event)
  | [] => trivial
  | e :: es => by
    refine ⟨events es, ?_⟩
    intro x hx
    obtain ⟨e', -, rfl⟩ := List.mem_map.mp hx
    rfl

theorem deliver {us : List Task} (hus : Sole us) : ∀ rs : List ResponseMessage,
    Sole (rs.map .deliver ++ us)
  | [] => hus
  | _ :: rs => ⟨deliver hus rs, trivial⟩

end Sole

namespace Gateway
variable {n : ℕ} {g g' : Gateway n} {a : Answer} {t : Task} {new rest : List Task}
  {clients : Clients}

theorem Does.sole (h : Does g a t new clients) (hsole : Sole (t :: rest)) : Sole (new ++ rest) := by
  obtain ⟨hrest, hhead⟩ := hsole
  have hfront : NoReader rest → Sole new → Sole (new ++ rest) := fun hno hnew => hrest.append hno hnew
  cases h with
  | enter => exact hfront hhead (by simp [Sole, NoReader, Task.reader])
  | wait events => exact hfront hhead (.events events)
  | ready => exact hfront hhead (by split_ifs <;> simp [Sole, NoReader, Task.reader])
  | read | chunk _ | readAll => exact hfront hhead (by simp [Sole, NoReader])
  | line _ _ => exact hfront hhead (by simp [Sole, NoReader])
  | drain batch => exact hrest.deliver batch
  | _ => simp [Sole, hrest]

end Gateway

/-- What was read from the connection of a descriptor is the lines that were passed on, with their
    ends, and the read buffer. -/
structure FramedAt {n : ℕ} (g : Gateway n) (i : Intake) (fd : Fd) : Prop where
  lines : ∀ client, g.clients.find? fd = some client → ∃ segments : List Text,
    (∀ s ∈ segments, '\n' ∉ s) ∧ i.lines = segments.map chomp ∧
      i.received = segments.flatMap (· ++ ['\n']) ++
        client.readBuffer.drop (toErase fd g.network)
  /-- Between the reads the buffer holds no whole line. -/
  idle : ∀ client, g.clients.find? fd = some client → (∀ t ∈ g.network, t.reader ≠ some fd) →
    '\n' ∉ client.readBuffer
  /-- While chunks are read, the buffer is what it was, and what the call has read. -/
  call : ∀ client, g.clients.find? fd = some client → .readChunks fd ∈ g.network →
    ∃ before, '\n' ∉ before ∧ client.readBuffer = before ++ i.call

namespace FramedAt
variable {n : ℕ} {g g' : Gateway n} {i : Intake} {fd : Fd}

/-- A step that changes nothing of the connection's reading. -/
theorem congr (h : FramedAt g i fd)
    (hclient : ∀ client, g'.clients.find? fd = some client →
      ∃ old, g.clients.find? fd = some old ∧ old.readBuffer = client.readBuffer)
    (hcount : toErase fd g'.network = toErase fd g.network)
    (hreader : g'.clients.find? fd ≠ none → (∃ t ∈ g.network, t.reader = some fd) →
      ∃ t ∈ g'.network, t.reader = some fd)
    (hchunks : .readChunks fd ∈ g'.network → .readChunks fd ∈ g.network) : FramedAt g' i fd := by
  refine ⟨fun client hfind => ?_, fun client hfind hidle => ?_, fun client hfind hmem => ?_⟩
  · obtain ⟨old, hold, hbuffer⟩ := hclient client hfind
    rw [hcount, ← hbuffer]
    exact h.lines old hold
  · obtain ⟨old, hold, hbuffer⟩ := hclient client hfind
    rw [← hbuffer]
    refine h.idle old hold fun t ht hread => ?_
    have hopen : g'.clients.find? fd ≠ none := by
      rw [hfind]
      exact Option.some_ne_none client
    obtain ⟨t', ht', hread'⟩ := hreader hopen ⟨t, ht, hread⟩
    exact hidle t' ht' hread'
  · obtain ⟨old, hold, hbuffer⟩ := hclient client hfind
    rw [← hbuffer]
    exact h.call old hold (hchunks hmem)

end FramedAt

namespace Gateway
variable {n : ℕ} {g g' : Gateway n} {a : Answer} {t : Task} {new rest : List Task}
  {clients : Clients}

/-- A change of a write buffer. -/
theorem find?_insert_write {c : ClientConnection} {fd : Fd} (hfind : g.clients.find? fd = some c)
    (buffer : Text) (fd' : Fd) (client : ClientConnection)
    (h : (g.clients.insert { c with writeBuffer := buffer }).find? fd' = some client) :
    ∃ old, g.clients.find? fd' = some old ∧ old.readBuffer = client.readBuffer := by
  by_cases he : fd' = c.fd
  · subst he
    have hself := g.clients.find?_insert_self { c with writeBuffer := buffer }
    rw [h] at hself
    cases hself
    rw [Clients.fd_of_find? hfind]
    exact ⟨c, hfind, rfl⟩
  · have hother : (g.clients.insert { c with writeBuffer := buffer }).find? fd' =
        g.clients.find? fd' := Clients.find?_insert_of_ne he
    exact ⟨client, hother ▸ h, rfl⟩

/-- A change of a read buffer. -/
theorem find?_insert_read {c : ClientConnection} {fd : Fd} (hfind : g.clients.find? fd = some c)
    (buffer : Text) :
    (g.clients.insert { c with readBuffer := buffer }).find? fd =
      some { c with readBuffer := buffer } := by
  obtain rfl := Clients.fd_of_find? hfind
  exact g.clients.find?_insert_self { c with readBuffer := buffer }

theorem find?_insert_read_of_ne {c : ClientConnection} {fd fd' : Fd}
    (hfind : g.clients.find? fd = some c) (buffer : Text) (hne : fd' ≠ fd) :
    (g.clients.insert { c with readBuffer := buffer }).find? fd' = g.clients.find? fd' := by
  rw [← Clients.fd_of_find? hfind] at hne
  exact Clients.find?_insert_of_ne hne

/-- Doing the task `t` is not about the read buffer of a connection. -/
def Aside (g : Gateway n) (t : Task) (new : List Task) (clients : Clients) (fd : Fd) : Prop :=
  (∀ client, clients.find? fd = some client →
    ∃ old, g.clients.find? fd = some old ∧ old.readBuffer = client.readBuffer) ∧
  (∀ us, toErase fd (new ++ us) = toErase fd (t :: us)) ∧
  (clients.find? fd ≠ none → t.reader = some fd → ∃ x ∈ new, x.reader = some fd) ∧
  (.readChunks fd ∈ new → t = .readChunks fd)

theorem toErase_events (fd : Fd) (us : List Task) (es : List ReadyEvent) :
    toErase fd (es.map .event ++ us) = toErase fd us := by
  refine toErase_append fun x hx => ?_
  obtain ⟨e, -, rfl⟩ := List.mem_map.mp hx
  rfl

theorem toErase_deliver (fd : Fd) (us : List Task) (rs : List ResponseMessage) :
    toErase fd (rs.map .deliver ++ us) = toErase fd us := by
  refine toErase_append fun x hx => ?_
  obtain ⟨resp, -, rfl⟩ := List.mem_map.mp hx
  rfl

/-- The descriptor whose reading a task carries on. -/
def focus : Task → Answer → Option Fd
  | .acceptConnections, .accepted (some fd) => some fd
  | .clientRead fd, _ | .lines fd, _ | .eraseLine fd _, _ => some fd
  | .readChunks fd, .read (.data _) => some fd
  | _, _ => none

/-- All tasks are aside of the connections that they do not carry on reading. -/
theorem Does.aside (h : Does g a t new clients) {fd : Fd} (hfocus : focus t a ≠ some fd) :
    Aside g t new clients fd := by
  have hsame : ∀ client, g.clients.find? fd = some client →
      ∃ old, g.clients.find? fd = some old ∧ old.readBuffer = client.readBuffer :=
    fun client h => ⟨client, h, rfl⟩
  cases h with
  | drain batch => exact ⟨hsame, fun us => toErase_deliver .., nofun, by simp⟩
  | wait events => exact ⟨hsame, fun us => toErase_events .., nofun, by simp⟩
  | ready =>
    refine ⟨hsame, fun us => ?_, nofun, ?_⟩ <;> split_ifs <;> simp [toErase]
  | deliver hfind | reject hfind | sent hfind =>
    exact ⟨find?_insert_write hfind _ fd, fun us => rfl, nofun, by simp⟩
  | @close fd' =>
    refine ⟨fun client hclient => ?_, fun us => rfl, fun hopen hread => ?_, nofun⟩
    · by_cases he : fd = fd'
      · rw [he, Clients.find?_erase_self] at hclient
        cases hclient
      · rw [Clients.find?_erase_of_ne he] at hclient
        exact hsame client hclient
    · cases hread
      exact absurd (Clients.find?_erase_self ..) hopen
  | cleanUp => exact ⟨nofun, fun us => rfl, nofun, nofun⟩
  | @accepted fd' hnew =>
    have hne : fd ≠ fd' := fun he => hfocus (congrArg some he.symm)
    refine ⟨fun client hclient => ?_, fun us => rfl, nofun, by simp⟩
    rw [Clients.find?_insert_of_ne hne] at hclient
    exact hsame client hclient
  | @chunk fd' client bytes hfind =>
    have hne : fd ≠ fd' := fun he => hfocus (congrArg some he.symm)
    refine ⟨fun client hclient => ?_, fun us => rfl, by simp [Task.reader], by simp [hne]⟩
    rw [find?_insert_read_of_ne hfind _ hne] at hclient
    exact hsame client hclient
  | @erase fd' count client hfind =>
    have hne : fd ≠ fd' := fun he => hfocus (congrArg some he.symm)
    refine ⟨fun client hclient => ?_, fun us => ?_, fun _ hread => ?_, nofun⟩
    · rw [find?_insert_read_of_ne hfind _ hne] at hclient
      exact hsame client hclient
    · rw [List.nil_append, toErase, if_neg (Ne.symm hne)]
    · exact absurd hread hfocus
  | @read fd' | @readUnknown fd' =>
    have hne : fd ≠ fd' := fun he => hfocus (congrArg some he.symm)
    exact ⟨hsame, fun us => rfl, nofun, by simp [hne]⟩
  | @line fd' client hfind hline =>
    have hne : fd' ≠ fd := fun he => hfocus (congrArg some he)
    exact ⟨hsame, fun us => by simp [toErase, hne], by simp [Task.reader, hne], by simp⟩
  | @noLine fd' client hfind hline =>
    exact ⟨hsame, fun us => rfl, fun _ hread => absurd hread hfocus, nofun⟩
  | ended | readFailed | readAll | retry _ =>
    exact ⟨hsame, fun us => rfl, by simp [Task.reader], by simp⟩
  | _ => exact ⟨hsame, fun us => rfl, nofun, by simp⟩

end Gateway

namespace FramedAt
variable {n : ℕ} {g g' : Gateway n} {i : Intake} {fd : Fd} {t : Task} {new rest : List Task}

theorem aside (h : FramedAt g i fd) (hnet : g.network = t :: rest)
    (hnet' : g'.network = new ++ rest) (haside : Gateway.Aside g t new g'.clients fd) :
    FramedAt g' i fd := by
  obtain ⟨hclient, hcount, hreader, hchunks⟩ := haside
  refine h.congr hclient ?_ ?_ ?_
  · rw [hnet, hnet']
    exact hcount rest
  · rw [hnet, hnet']
    rintro hopen ⟨x, hx, hread⟩
    rcases List.mem_cons.mp hx with rfl | hx
    · obtain ⟨y, hy, hread'⟩ := hreader hopen hread
      exact ⟨y, List.mem_append_left _ hy, hread'⟩
    · exact ⟨x, List.mem_append_right _ hx, hread⟩
  · rw [hnet, hnet']
    intro hmem
    rcases List.mem_append.mp hmem with hmem | hmem
    · rw [hchunks hmem]
      exact List.mem_cons_self ..
    · exact List.mem_cons_of_mem t hmem

end FramedAt

/-- A call of `handle_client_read` has read nothing yet. -/
theorem Gateway.takeIn_clientRead {n : ℕ} {g : Gateway n} {rest : List Task} {fd : Fd}
    (ins : Intakes) (hnet : g.network = .clientRead fd :: rest) :
    g.takeIn .none ins = update ins fd { ins fd with call := [] } := by
  unfold takeIn
  rw [hnet]

theorem Gateway.takeIn_of_ne {n : ℕ} {g : Gateway n} {a : Answer} {t : Task} {rest : List Task}
    {fd : Fd} (ins : Intakes) (hnet : g.network = t :: rest) (hfocus : focus t a ≠ some fd) :
    g.takeIn a ins fd = ins fd := by
  have hother : ∀ {fd' : Fd} (x : Intake), focus t a = some fd' →
      update ins fd' x fd = ins fd := by
    intro fd' x hfd'
    refine Function.update_of_ne ?_ ..
    rintro rfl
    exact hfocus hfd'
  unfold takeIn
  rw [hnet]
  cases t with
  | acceptConnections =>
    cases a with
    | accepted new =>
      cases new with
      | none => rfl
      | some fd' => exact hother _ rfl
    | _ => rfl
  | clientRead fd' => exact hother _ rfl
  | readChunks fd' =>
    cases a with
    | read r =>
      cases r with
      | data bytes => exact hother _ rfl
      | _ => rfl
    | _ => rfl
  | lines fd' =>
    dsimp only
    cases g.clients.find? fd' with
    | none => rfl
    | some client =>
      dsimp only
      split_ifs
      · exact hother _ rfl
      · rfl
  | _ => rfl

namespace FramedAt
variable {n : ℕ} {g g' : Gateway n} {i : Intake} {fd : Fd} {new rest : List Task}

theorem mem_reader {t : Task} {ts : List Task} (hno : NoReader ts) (ht : t ∈ ts) :
    t.reader ≠ some fd := by
  rw [hno t ht]
  exact nofun

/-- A new connection. -/
theorem accepted (hclients : g'.clients = g.clients.insert { fd := fd }) :
    FramedAt g' {} fd := by
  have hfind : g'.clients.find? fd = some { fd := fd } := by
    rw [hclients]
    exact g.clients.find?_insert_self { fd := fd }
  refine ⟨fun client h => ?_, fun client h _ => ?_, fun client h _ => ?_⟩ <;>
    obtain rfl := Option.some.inj (hfind.symm.trans h)
  · exact ⟨[], nofun, rfl, by simp⟩
  · exact List.not_mem_nil
  · exact ⟨[], List.not_mem_nil, rfl⟩

/-- A call of `handle_client_read` begins, or finds no connection. -/
theorem read (h : FramedAt g i fd) (hnet : g.network = .clientRead fd :: rest)
    (hno : NoReader rest) (hnet' : g'.network = new ++ rest)
    (hnew : new = [] ∨ new = [.readChunks fd]) (hclients : g'.clients = g.clients) :
    FramedAt g' { i with call := [] } fd := by
  have hfree : ∀ client, g.clients.find? fd = some client → '\n' ∉ client.readBuffer := by
    intro client hfind
    refine h.idle client hfind fun t ht => ?_
    rw [hnet] at ht
    rcases List.mem_cons.mp ht with rfl | ht
    · exact nofun
    · exact mem_reader hno ht
  have hcount : toErase fd g'.network = toErase fd g.network := by
    rw [hnet, hnet']
    rcases hnew with rfl | rfl <;> rfl
  refine ⟨?_, ?_, ?_⟩ <;> rw [hclients]
  · rw [hcount]
    exact h.lines
  · intro client hfind _
    exact hfree client hfind
  · intro client hfind _
    exact ⟨client.readBuffer, hfree client hfind, (List.append_nil _).symm⟩

/-- A chunk is read. -/
theorem chunk (h : FramedAt g i fd) (hnet : g.network = .readChunks fd :: rest)
    (hno : NoReader rest) (hnet' : g'.network = g.network) {c : ClientConnection}
    (hfind : g.clients.find? fd = some c) (bytes : Text)
    (hclients : g'.clients = g.clients.insert { c with readBuffer := c.readBuffer ++ bytes }) :
    FramedAt g' { i with received := i.received ++ bytes, call := i.call ++ bytes } fd := by
  have hmem : .readChunks fd ∈ g.network := by
    rw [hnet]
    exact List.mem_cons_self ..
  have hnone : toErase fd g.network = 0 := hnet ▸ toErase_reading hno (.inl rfl)
  have hfind' : g'.clients.find? fd = some { c with readBuffer := c.readBuffer ++ bytes } := by
    rw [hclients]
    exact Gateway.find?_insert_read hfind _
  refine ⟨fun client hf => ?_, fun client hf hidle => ?_, fun client hf _ => ?_⟩ <;>
    obtain rfl := Option.some.inj (hfind'.symm.trans hf)
  · obtain ⟨segments, hfree, hlines, hreceived⟩ := h.lines c hfind
    refine ⟨segments, hfree, hlines, ?_⟩
    rw [hnone, List.drop_zero] at hreceived
    rw [hnet', hnone, List.drop_zero, hreceived, List.append_assoc]
  · rw [hnet'] at hidle
    exact absurd rfl (hidle _ hmem)
  · obtain ⟨before, hfree, hbuffer⟩ := h.call c hfind hmem
    refine ⟨before, hfree, ?_⟩
    dsimp only
    rw [hbuffer, List.append_assoc]

/-- A line is passed on; its bytes are erased later. -/
theorem line (h : FramedAt g i fd) (hnet : g.network = .lines fd :: rest) (hno : NoReader rest)
    {c : ClientConnection} (hfind : g.clients.find? fd = some c) (hline : '\n' ∈ c.readBuffer)
    (hnet' : g'.network = .processLine fd (Gateway.lineAt c.readBuffer (c.readBuffer.idxOf '\n')) ::
      .eraseLine fd (c.readBuffer.idxOf '\n' + 1) :: .lines fd :: rest)
    (hclients : g'.clients = g.clients) :
    FramedAt g' { i with
      lines := i.lines ++ [Gateway.lineAt c.readBuffer (c.readBuffer.idxOf '\n')] } fd := by
  have hnone : toErase fd g.network = 0 := hnet ▸ toErase_reading hno (.inr rfl)
  have hcount : toErase fd g'.network = c.readBuffer.idxOf '\n' + 1 := by
    rw [hnet']
    simp [toErase]
  refine ⟨fun client hf => ?_, fun client hf hidle => ?_, fun client hf hmem => ?_⟩
  · rw [hclients, hfind] at hf
    cases hf
    obtain ⟨segments, hfree, hlines, hreceived⟩ := h.lines c hfind
    have hlt := List.idxOf_lt_length_of_mem hline
    have hcut : c.readBuffer = c.readBuffer.take (c.readBuffer.idxOf '\n') ++
        '\n' :: c.readBuffer.drop (c.readBuffer.idxOf '\n' + 1) := by
      have hget : c.readBuffer[c.readBuffer.idxOf '\n'] = '\n' := List.getElem_idxOf hlt
      have hdrop := List.drop_eq_getElem_cons hlt
      rw [hget] at hdrop
      rw [← hdrop, List.take_append_drop]
    refine ⟨segments ++ [c.readBuffer.take (c.readBuffer.idxOf '\n')], ?_, ?_, ?_⟩
    · intro s hs
      rcases List.mem_append.mp hs with hs | hs
      · exact hfree s hs
      · rw [List.mem_singleton.mp hs]
        rw [List.mem_take_iff_idxOf_lt hline]
        exact lt_irrefl _
    · rw [hlines, List.map_append]
      rfl
    · rw [hcount]
      dsimp only
      rw [hreceived, hnone, List.drop_zero, List.flatMap_append, List.flatMap_singleton,
        List.append_assoc, List.append_assoc, List.singleton_append, ← hcut]
  · rw [hnet'] at hidle
    exact absurd rfl (hidle (.lines fd) (by simp))
  · rw [hnet'] at hmem
    simp only [List.mem_cons, reduceCtorEq, false_or] at hmem
    exact absurd rfl (mem_reader hno hmem)

/-- The bytes of the line are erased. -/
theorem erase (h : FramedAt g i fd) {count : ℕ}
    (hnet : g.network = .eraseLine fd count :: .lines fd :: rest) (hno : NoReader rest)
    {c : ClientConnection} (hfind : g.clients.find? fd = some c)
    (hnet' : g'.network = .lines fd :: rest)
    (hclients : g'.clients = g.clients.insert { c with readBuffer := c.readBuffer.drop count }) :
    FramedAt g' i fd := by
  have hcount : toErase fd g.network = count := by
    rw [hnet]
    simp [toErase]
  have hnone : toErase fd g'.network = 0 := hnet' ▸ toErase_reading hno (.inr rfl)
  have hfind' : g'.clients.find? fd = some { c with readBuffer := c.readBuffer.drop count } := by
    rw [hclients]
    exact Gateway.find?_insert_read hfind _
  refine ⟨fun client hf => ?_, fun client hf hidle => ?_, fun client hf hmem => ?_⟩
  · obtain rfl := Option.some.inj (hfind'.symm.trans hf)
    have hlines := h.lines c hfind
    rw [hcount] at hlines
    rw [hnone]
    exact hlines
  · rw [hnet'] at hidle
    exact absurd rfl (hidle (.lines fd) (List.mem_cons_self ..))
  · rw [hnet'] at hmem
    simp only [List.mem_cons, reduceCtorEq, false_or] at hmem
    exact absurd rfl (mem_reader hno hmem)

/-- No line is left. -/
theorem noLine (h : FramedAt g i fd) (hnet : g.network = .lines fd :: rest) (hno : NoReader rest)
    {c : ClientConnection} (hfind : g.clients.find? fd = some c) (hline : '\n' ∉ c.readBuffer)
    (hnet' : g'.network = rest) (hclients : g'.clients = g.clients) : FramedAt g' i fd := by
  have hcount : toErase fd g'.network = toErase fd g.network := by
    rw [hnet, hnet']
    rfl
  refine ⟨?_, ?_, ?_⟩ <;> rw [hclients]
  · rw [hcount]
    exact h.lines
  · intro client hf _
    rw [hfind] at hf
    cases hf
    exact hline
  · intro client _ hmem
    rw [hnet'] at hmem
    exact absurd rfl (mem_reader hno hmem)

end FramedAt

/-- The intakes account for the connections. -/
structure Framed {n : ℕ} (g : Gateway n) (ins : Intakes) : Prop where
  sole : Sole g.network
  framedAt : ∀ fd, FramedAt g (ins fd) fd

namespace Framed
variable {n : ℕ} {g g' : Gateway n} {ins : Intakes}

theorem network (h : Framed g ins) {a : Answer} (hstep : Gateway.networkStep a g = some g') :
    Framed g' (g.takeIn a ins) := by
  obtain ⟨⟨t, new, rest, hnet, hnet', hdoes⟩, -, -, -⟩ := Gateway.networkStep_does hstep
  have hsole := h.sole
  rw [hnet] at hsole
  refine ⟨hnet' ▸ hdoes.sole hsole, fun fd => ?_⟩
  have hat := h.framedAt fd
  by_cases hfocus : Gateway.focus t a = some fd
  swap
  · rw [Gateway.takeIn_of_ne ins hnet hfocus]
    exact hat.aside hnet hnet' (hdoes.aside hfocus)
  obtain ⟨hsole, hhead⟩ := hsole
  generalize hclients : g'.clients = clients at hdoes
  cases hdoes with
  | @accepted fd' hnew =>
    cases hfocus
    have hin : g.takeIn (.accepted (some fd)) ins = update ins fd {} := by
      unfold Gateway.takeIn
      rw [hnet]
    rw [hin, Function.update_self]
    exact .accepted hclients
  | @readUnknown fd' =>
    cases hfocus
    rw [Gateway.takeIn_clientRead ins hnet, Function.update_self]
    exact hat.read hnet hhead hnet' (.inl rfl) hclients
  | @read fd' =>
    cases hfocus
    rw [Gateway.takeIn_clientRead ins hnet, Function.update_self]
    exact hat.read hnet hhead hnet' (.inr rfl) hclients
  | @chunk fd' client bytes hfind =>
    cases hfocus
    have hin : g.takeIn (.read (.data bytes)) ins = update ins fd { ins fd with
        received := (ins fd).received ++ bytes,
        call := (ins fd).call ++ bytes } := by
      unfold Gateway.takeIn
      rw [hnet]
    rw [hin, Function.update_self]
    exact hat.chunk hnet hhead (hnet'.trans hnet.symm) hfind bytes hclients
  | @line fd' client hfind hline =>
    cases hfocus
    have hin : g.takeIn .none ins = update ins fd { ins fd with
        lines := (ins fd).lines ++
          [Gateway.lineAt client.readBuffer (client.readBuffer.idxOf '\n')] } := by
      unfold Gateway.takeIn
      rw [hnet]
      dsimp only
      rw [hfind]
      exact if_pos hline
    rw [hin, Function.update_self]
    exact hat.line hnet hhead hfind hline hnet' hclients
  | @noLine fd' client hfind hline =>
    cases hfocus
    have hin : g.takeIn .none ins = ins := by
      unfold Gateway.takeIn
      rw [hnet]
      dsimp only
      rw [hfind]
      exact if_neg hline
    rw [hin]
    exact hat.noLine hnet hhead hfind hline hnet' hclients
  | @erase fd' count client hfind =>
    cases hfocus
    have hin : g.takeIn .none ins = ins := by
      unfold Gateway.takeIn
      rw [hnet]
    obtain ⟨us, rfl⟩ := hhead
    obtain ⟨-, hno⟩ := hsole
    rw [hin]
    exact hat.erase hnet hno hfind hnet' hclients
  | _ => cases hfocus

/-- The matching thread and `stop` do not touch the connections. -/
theorem aside (h : Framed g ins) (hnet : g'.network = g.network) (hclients : g'.clients = g.clients) :
    Framed g' ins := by
  refine ⟨hnet ▸ h.sole, fun fd => (h.framedAt fd).congr ?_ ?_ ?_ ?_⟩
  · intro client hfind
    rw [hclients] at hfind
    exact ⟨client, hfind, rfl⟩
  · rw [hnet]
  · intro _ hreads
    rwa [hnet]
  · intro hmem
    rwa [hnet] at hmem

theorem of_trace {queueCapacity : UInt64} {book : PoolOrderBook} {serverFd : Fd}
    {ms : List (Move (Gateway _) Choice)} {g : Gateway _}
    (h : Trace Gateway.step (.start queueCapacity book serverFd) ms g) :
    Framed g (ms.foldl Intakes.record fun _ => {}) := by
  refine h.fold_invariant (P := fun _ => True) (I := Framed) _ ?_ ?_ fun _ _ => trivial
  · intro g ins a g' hframed hstep _
    cases a with
    | stop =>
      cases hstep
      exact hframed.aside rfl rfl
    | network a => exact hframed.network hstep
    | matching popped =>
      have hmove : g.MatchingMove {} g' (g.recordMatching {}) := Gateway.matchingStep_move hstep
      exact hframed.aside hmove.network_eq hmove.clients_eq
  · exact ⟨⟨trivial, nofun⟩, fun fd => ⟨nofun, nofun, nofun⟩⟩

end Framed

/-! ### The lines of a stream -/

/-- What was passed on of a stream is in front of the lines that the stream consists of. -/
theorem FramedAt.frames_eq {n : ℕ} {g : Gateway n} {i : Intake} {fd : Fd} (h : FramedAt g i fd)
    {client : ClientConnection} (hfind : g.clients.find? fd = some client) :
    let rest := frames '\n' (client.readBuffer.drop (toErase fd g.network))
    (frames '\n' i.received).1.map chomp = i.lines ++ rest.1.map chomp ∧
      (frames '\n' i.received).2 = rest.2 := by
  obtain ⟨segments, hfree, hlines, hreceived⟩ := h.lines client hfind
  rw [hreceived, frames_append _ hfree, List.map_append, hlines]
  exact ⟨rfl, rfl⟩

/-- What was read from an open connection decides which lines were passed on, in which order, and
    what the read buffer holds between two calls of `handle_client_read`. -/
theorem framing (queueCapacity : UInt64) (book : PoolOrderBook) (serverFd : Fd)
    {ms : List (Move (Gateway _) Choice)} {g : Gateway _}
    (h : Trace Gateway.step (.start queueCapacity book serverFd) ms g) {fd : Fd}
    {client : ClientConnection} (hopen : g.clients.find? fd = some client) :
    let i := ms.foldl Intakes.record (fun _ => {}) fd
    i.lines <+: (frames '\n' i.received).1.map chomp ∧
    ((∀ t ∈ g.network, t.reader ≠ some fd) →
      i.lines = (frames '\n' i.received).1.map chomp ∧
      client.readBuffer = (frames '\n' i.received).2) := by
  have hat := (Framed.of_trace h).framedAt fd
  obtain ⟨hfst, hsnd⟩ := hat.frames_eq hopen
  refine ⟨⟨_, hfst.symm⟩, fun hidle => ?_⟩
  have hrest := frames_of_notMem (hat.idle client hopen hidle)
  rw [toErase_of_idle hidle, List.drop_zero, hrest] at hfst hsnd
  rw [hfst, hsnd]
  exact ⟨(List.append_nil _).symm, rfl⟩

/-- What the intakes have as lines is what was passed on: a step that adds a line puts the task that
    processes this line in front of the others. -/
theorem lines_passed {n : ℕ} {g g' : Gateway n} {c : Choice} (h : Gateway.step c g = some g')
    (ins : Intakes) {fd : Fd} (hold : c ≠ .network (.accepted (some fd))) :
    (ins.record ⟨g, c, g'⟩ fd).lines = (ins fd).lines ∨
    ∃ line count rest, (ins.record ⟨g, c, g'⟩ fd).lines = (ins fd).lines ++ [line] ∧
      g.network = .lines fd :: rest ∧
      g'.network = .processLine fd line :: .eraseLine fd count :: .lines fd :: rest := by
  have hsame : ∀ (fd' : Fd) (i : Intake), i.lines = (ins fd').lines →
      (update ins fd' i fd).lines = (ins fd).lines := by
    intro fd' i hi
    by_cases hfd : fd = fd'
    · subst hfd
      rw [Function.update_self, hi]
    · rw [Function.update_of_ne hfd]
  cases c with
  | stop | matching _ => exact .inl rfl
  | network a =>
    have hstep : Gateway.networkStep a g = some g' := h
    rw [Intakes.record]
    dsimp only
    generalize hins : g.takeIn a ins = ins'
    unfold Gateway.takeIn at hins
    split at hins
    case h_1 =>
      subst hins
      refine .inl ?_
      rw [Function.update_of_ne]
      rintro rfl
      exact hold rfl
    case h_2 | h_3 =>
      subst hins
      exact .inl (hsame _ _ rfl)
    case h_4 a _ _ fd' rest hnet =>
      unfold Gateway.networkStep at hstep
      rw [hnet] at hstep
      cases hfind : g.clients.find? fd' with
      | none =>
        rw [hfind] at hins
        subst hins
        exact .inl rfl
      | some client =>
        rw [hfind] at hins
        dsimp only at hins
        split_ifs at hins with hline <;> subst hins
        · by_cases hfd : fd = fd'
          · subst hfd
            cases a with
            | none =>
              dsimp only at hstep
              rw [hfind] at hstep
              dsimp only at hstep
              rw [if_pos hline] at hstep
              cases hstep
              exact .inr ⟨_, _, rest, by rw [Function.update_self], hnet, rfl⟩
            | _ => cases hstep
          · exact .inl (by rw [Function.update_of_ne hfd])
        · exact .inl rfl
    case h_5 =>
      subst hins
      exact .inl rfl

/-- Two connections that were sent the same have passed on the same lines and hold the same rest,
    however either was cut into chunks and calls. -/
theorem framing_independent (queueCapacity : UInt64) (book : PoolOrderBook) (serverFd : Fd)
    (queueCapacity' : UInt64) (book' : PoolOrderBook) (serverFd' : Fd)
    {ms : List (Move (Gateway _) Choice)} {g : Gateway _}
    {ms' : List (Move (Gateway _) Choice)} {g' : Gateway _}
    (h : Trace Gateway.step (.start queueCapacity book serverFd) ms g)
    (h' : Trace Gateway.step (.start queueCapacity' book' serverFd') ms' g') {fd fd' : Fd}
    {client client' : ClientConnection}
    (hopen : g.clients.find? fd = some client) (hopen' : g'.clients.find? fd' = some client')
    (hidle : ∀ t ∈ g.network, t.reader ≠ some fd) (hidle' : ∀ t ∈ g'.network, t.reader ≠ some fd') :
    let i := ms.foldl Intakes.record (fun _ => {}) fd
    let i' := ms'.foldl Intakes.record (fun _ => {}) fd'
    (i.lines = (frames '\n' i.received).1.map chomp ∧
      client.readBuffer = (frames '\n' i.received).2) ∧
    (i.received = i'.received → i.lines = i'.lines ∧ client.readBuffer = client'.readBuffer) := by
  obtain ⟨hlines, hbuffer⟩ := (framing queueCapacity book serverFd h hopen).2 hidle
  obtain ⟨hlines', hbuffer'⟩ := (framing queueCapacity' book' serverFd' h' hopen').2 hidle'
  refine ⟨⟨hlines, hbuffer⟩, fun hreceived => ?_⟩
  rw [hlines, hlines', hbuffer, hbuffer', hreceived]
  exact ⟨rfl, rfl⟩

/-- After the lines of one call, the next call for the same connection. -/
def callAgain : List Choice :=
  [.network .none, .network (.popped 0), .network .none, .network (.popped 0),
   .network (.ready [{ fd := 5, readable := true }]), .network .none, .network .none]

/-- A malformed line is processed, and its bytes are erased. -/
def rejectLine : List Choice :=
  [.network .none, .network (.clock 0 0), .network (.wrote .wouldBlock), .network .none]

/-- Two lines, cut within the second one. -/
def cutTwice : List Choice :=
  clientSends "A\r\nB" ++ rejectLine ++ callAgain ++
  [.network (.read (.data "\nC".toList)), .network (.read .wouldBlock)] ++ rejectLine ++
  [.network .none]

/-- The same in one chunk. -/
def cutOnce : List Choice :=
  clientSends "A\r\nB\nC" ++ rejectLine ++ rejectLine ++ [.network .none]

theorem cuts_play : (play Gateway.step (Gateway.start 1 (.ctor 1) 3) cutTwice).isSome ∧
    (play Gateway.step (Gateway.start 1 (.ctor 1) 3) cutOnce).isSome := by
  decide

theorem framing_independent_cuts :
    let i := (moves Gateway.step (.start 1 (.ctor 1) 3) cutTwice).foldl Intakes.record (fun _ => {}) 5
    let i' := (moves Gateway.step (.start 1 (.ctor 1) 3) cutOnce).foldl Intakes.record (fun _ => {}) 5
    i.received = "A\r\nB\nC".toList ∧ i.lines = i'.lines :=
  ⟨by decide, ((framing_independent 1 (.ctor 1) 3 1 (.ctor 1) 3
    (.of_play (Option.some_get cuts_play.1).symm) (.of_play (Option.some_get cuts_play.2).symm)
    (Option.some_get (by decide)).symm (Option.some_get (by decide)).symm (by decide)
    (by decide)).2 (by decide)).1⟩

/-! ### The end of a stream -/

theorem Gateway.networkStep_end {n : ℕ} {g g' : Gateway n} {fd : Fd} {rest : List Task}
    (hnet : g.network = .readChunks fd :: rest)
    (h : networkStep (.read .endOfStream) g = some g') :
    (∃ client, g.clients.find? fd = some client) ∧
      g' = { g with network := .closeConnection fd :: rest } := by
  unfold networkStep at h
  rw [hnet] at h
  dsimp only at h
  cases hfind : g.clients.find? fd with
  | none =>
    rw [hfind] at h
    cases h
  | some client =>
    rw [hfind] at h
    exact ⟨⟨client, rfl⟩, (Option.some.inj h).symm⟩

/-- The other threads leave the network thread where it is. -/
theorem network_of_others {n : ℕ} {g g' : Gateway n} {ms : List (Move (Gateway n) Choice)}
    (h : Trace Gateway.step g ms g') (hothers : ∀ m ∈ ms, ∀ a, m.choice ≠ .network a) (ins : Intakes) :
    g'.network = g.network ∧ ms.foldl Intakes.record ins = ins := by
  refine h.fold_invariant (I := fun s i => s.network = g.network ∧ i = ins)
    (P := fun m => ∀ a, m.choice ≠ .network a) Intakes.record ?_ ⟨rfl, rfl⟩ hothers
  rintro s i a s' ⟨hnet, hi⟩ hstep hother
  cases a with
  | stop =>
    cases hstep
    exact ⟨hnet, hi⟩
  | network a => exact absurd rfl (hother a)
  | matching popped =>
    have hmove : s.MatchingMove {} s' (s.recordMatching {}) := Gateway.matchingStep_move hstep
    exact ⟨hmove.network_eq.trans hnet, hi⟩

/-- What closes the connection at the end of its stream. -/
theorem closed_at_end {n : ℕ} {ms' : List (Move (Gateway n) Choice)} {g g₁ g₂ g₃ : Gateway n}
    {fd : Fd} {rest : List Task} (ms : List (Move (Gateway n) Choice)) (ins : Intakes)
    (hnet : g.network = .readChunks fd :: rest)
    (hend : Gateway.step (.network (.read .endOfStream)) g = some g₁)
    (hother : Trace Gateway.step g₁ ms' g₂) (hothers : ∀ m ∈ ms', ∀ a, m.choice ≠ .network a)
    (hclose : Gateway.step (.network .none) g₂ = some g₃) :
    (∃ client, g.clients.find? fd = some client) ∧ g₃.clients.find? fd = none ∧
    (ms ++ Move.mk g (Choice.network (.read .endOfStream)) g₁ :: ms' ++
      [Move.mk g₂ (Choice.network .none) g₃]).foldl Intakes.record ins = ms.foldl Intakes.record ins := by
  obtain ⟨hopen, hg₁⟩ := Gateway.networkStep_end hnet hend
  obtain ⟨hnet₂, hkept⟩ := network_of_others hother hothers (ms.foldl Intakes.record ins)
  rw [hg₁] at hnet₂
  refine ⟨hopen, ?_, ?_⟩
  · rw [Gateway.step] at hclose
    unfold Gateway.networkStep at hclose
    rw [hnet₂] at hclose
    cases hclose
    exact Clients.find?_erase_self ..
  · rw [List.foldl_append, List.foldl_append, List.foldl_cons]
    generalize ms.foldl Intakes.record ins = ins at hkept ⊢
    have hend' : g.takeIn (.read .endOfStream) ins = ins := by
      unfold Gateway.takeIn
      rw [hnet]
    have hclose' : g₂.takeIn .none ins = ins := by
      unfold Gateway.takeIn
      rw [hnet₂]
    change g₂.takeIn .none (ms'.foldl Intakes.record (g.takeIn (.read .endOfStream) ins)) = ins
    rw [hend', hkept, hclose']

/-- When a connection is closed at the end of its stream, all its lines have been passed on, in
    order and once, just if the call that met the end had read no end of a line before it. -/
theorem endOfStream_keeps_lines (queueCapacity : UInt64) (book : PoolOrderBook) (serverFd : Fd)
    {ms ms' : List (Move (Gateway _) Choice)} {g g₁ g₂ g₃ : Gateway _} {fd : Fd}
    {rest : List Task} (h : Trace Gateway.step (.start queueCapacity book serverFd) ms g)
    (hnet : g.network = .readChunks fd :: rest)
    (hend : Gateway.step (.network (.read .endOfStream)) g = some g₁)
    (hother : Trace Gateway.step g₁ ms' g₂) (hothers : ∀ m ∈ ms', ∀ a, m.choice ≠ .network a)
    (hclose : Gateway.step (.network .none) g₂ = some g₃) :
    g₃.clients.find? fd = none ∧
    let all := ms ++ Move.mk g (.network (.read .endOfStream)) g₁ :: ms' ++
      [Move.mk g₂ (.network .none) g₃]
    let i := all.foldl Intakes.record (fun _ => {}) fd
    i.lines = (frames '\n' i.received).1.map chomp ↔
      '\n' ∉ (ms.foldl Intakes.record (fun _ => {}) fd).call := by
  have hframed := Framed.of_trace h
  obtain ⟨⟨client, hopen⟩, hclosed, hintake⟩ :=
    closed_at_end _ (fun _ => {}) hnet hend hother hothers hclose
  refine ⟨hclosed, ?_⟩
  have hsole := hframed.sole
  rw [hnet] at hsole
  obtain ⟨-, hno⟩ := hsole
  have hmem : .readChunks fd ∈ g.network := by
    rw [hnet]
    exact List.mem_cons_self ..
  have hnone : toErase fd g.network = 0 := hnet ▸ toErase_reading hno (.inl rfl)
  obtain ⟨before, hfree, hbuffer⟩ := (hframed.framedAt fd).call client hopen hmem
  obtain ⟨hlines, -⟩ := (hframed.framedAt fd).frames_eq hopen
  dsimp only
  rw [hintake, hlines, hnone, List.drop_zero, List.self_eq_append_right, List.map_eq_nil_iff,
    frames_fst_eq_nil_iff, hbuffer, List.mem_append, not_or]
  exact and_iff_right hfree

/-- The stream ends in a call of its own. -/
def lineThenEnd : List Choice := clientSends "FLUSH\n" ++ nextLine ++ pushLine ++ callAgain

/-- The stream ends in the call that reads the line. -/
def lineWithEnd : List Choice := (clientSends "FLUSH\n").dropLast

deriving instance DecidableEq for ReadyEvent, Task

/-- The end of the stream is met behind a run. -/
def meetsEnd (run : List Choice) : Bool :=
  (play Gateway.step (Gateway.start 1 (.ctor 1) 3) run).any fun g =>
    g.network = [.readChunks 5, .drainResponses, .whileRunning] ∧
    (Gateway.step (.network (.read .endOfStream)) g).any fun g₁ =>
      (Gateway.step (.network .none) g₁).any fun _ => true

theorem of_meetsEnd (run : List Choice) (h : meetsEnd run) : ∃ g g₁ g₃,
    Trace Gateway.step (Gateway.start 1 (.ctor 1) 3)
      (moves Gateway.step (Gateway.start 1 (.ctor 1) 3) run) g ∧
    g.network = [.readChunks 5, .drainResponses, .whileRunning] ∧
    Gateway.step (.network (.read .endOfStream)) g = some g₁ ∧
    Gateway.step (.network .none) g₁ = some g₃ := by
  obtain ⟨g, hg, hend⟩ := (Option.any_eq_true _ _).mp h
  obtain ⟨hnet, hend⟩ := of_decide_eq_true hend
  obtain ⟨g₁, hg₁, hend⟩ := (Option.any_eq_true _ _).mp hend
  obtain ⟨g₃, hg₃, -⟩ := (Option.any_eq_true _ _).mp hend
  exact ⟨g, g₁, g₃, .of_play hg, hnet, hg₁, hg₃⟩

theorem endOfStream_keeps_lines_lineThenEnd : ∃ g g₁ g₃,
    Trace Gateway.step (Gateway.start 1 (.ctor 1) 3)
      (moves Gateway.step (Gateway.start 1 (.ctor 1) 3) lineThenEnd) g ∧
    Gateway.step (.network (.read .endOfStream)) g = some g₁ ∧
    Gateway.step (.network .none) g₁ = some g₃ ∧ g₃.clients.find? 5 = none ∧
    let all := moves Gateway.step (Gateway.start 1 (.ctor 1) 3) lineThenEnd ++
      [Move.mk g (.network (.read .endOfStream)) g₁] ++ [Move.mk g₁ (.network .none) g₃]
    let i := all.foldl Intakes.record (fun _ => {}) 5
    i.lines = (frames '\n' i.received).1.map chomp := by
  obtain ⟨g, g₁, g₃, hrun, hnet, hend, hclose⟩ := of_meetsEnd lineThenEnd (by decide)
  have h := endOfStream_keeps_lines 1 (.ctor 1) 3 hrun hnet hend .start (List.forall_mem_nil _) hclose
  exact ⟨g, g₁, g₃, hrun, hend, hclose, h.1, h.2.mpr (by decide)⟩

/-- A line that comes in one call with the end of the stream is dropped. -/
theorem endOfStream_drops_lines : ¬ ∀ (queueCapacity : UInt64) (book : PoolOrderBook)
    (serverFd : Fd) (ms ms' : List (Move (Gateway _) Choice)) (g g₁ g₂ g₃ : Gateway _) (fd : Fd)
    (rest : List Task), Trace Gateway.step (.start queueCapacity book serverFd) ms g →
      g.network = .readChunks fd :: rest →
      Gateway.step (.network (.read .endOfStream)) g = some g₁ →
      Trace Gateway.step g₁ ms' g₂ → (∀ m ∈ ms', ∀ a, m.choice ≠ .network a) →
      Gateway.step (.network .none) g₂ = some g₃ →
      let all := ms ++ Move.mk g (.network (.read .endOfStream)) g₁ :: ms' ++
        [Move.mk g₂ (.network .none) g₃]
      let i := all.foldl Intakes.record (fun _ => {}) fd
      i.lines = (frames '\n' i.received).1.map chomp := by
  intro h
  obtain ⟨g, g₁, g₃, hrun, hnet, hend, hclose⟩ := of_meetsEnd lineWithEnd (by decide)
  have hlines := h 1 (.ctor 1) 3 _ [] g g₁ g₁ g₃ 5 _ hrun hnet hend .start (List.forall_mem_nil _) hclose
  obtain ⟨-, -, hintake⟩ := closed_at_end _ (fun _ => {})
    hnet hend .start (List.forall_mem_nil _) hclose
  dsimp only at hlines
  rw [hintake] at hlines
  exact absurd hlines (by decide)

end Titan
