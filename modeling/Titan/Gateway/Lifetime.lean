import Titan.Gateway.Framing

/-! References to connections that are gone.

    `handle_client_read` keeps a reference to its connection while it processes lines, and the
    connection can be closed three calls deeper, by the flush of a rejection. As long as no such flush
    meets a hard error, whatever uses a connection finds it. -/

namespace Titan
open Schemes

namespace Task

/-- The connection that a task has a reference to. -/
def user : Task → Option Fd
  | .readChunks fd | .lines fd | .processLine fd _ | .eraseLine fd _ | .flush fd => some fd
  | _ => none

end Task

/-- Nothing has a reference to a connection. -/
def NoUser (ts : List Task) : Prop := ∀ t ∈ ts, t.user = none

/-- Only the tasks that process a line have references behind them. -/
def Tidy : List Task → Prop
  | [] => True
  | t :: ts => Tidy ts ∧
    match t with
    | .processLine fd _ => ∃ count us, ts = .eraseLine fd count :: us
    | .flush fd => NoUser ts ∨ ∃ count us, ts = .eraseLine fd count :: us
    | .pushIngress _ | .eraseLine _ _ => True
    | _ => NoUser ts

/-- Every reference is to an open connection. -/
def Live (clients : Clients) (ts : List Task) : Prop :=
  ∀ t ∈ ts, ∀ fd, t.user = some fd → clients.find? fd ≠ none

namespace NoUser
variable {ts us : List Task} {t : Task}

theorem live (h : NoUser ts) (clients : Clients) : Live clients ts := by
  intro t ht fd hfd
  rw [h t ht] at hfd
  cases hfd

theorem append (hts : NoUser ts) (hus : NoUser us) : NoUser (ts ++ us) := fun t ht =>
  (List.mem_append.mp ht).elim (hts t) (hus t)

theorem tidy_append (hus : NoUser us) (htidy : Tidy us) : ∀ {ts : List Task}, NoUser ts →
    Tidy (ts ++ us)
  | [], _ => htidy
  | t :: ts, h => by
    obtain ⟨ht, hts⟩ := List.forall_mem_cons.mp h
    refine ⟨tidy_append hus htidy hts, ?_⟩
    cases t with
    | processLine _ _ | flush _ => cases ht
    | pushIngress _ | eraseLine _ _ => trivial
    | _ => exact NoUser.append hts hus

theorem map {α : Type} {f : α → Task} (hf : ∀ x, (f x).user = none) (xs : List α) :
    NoUser (xs.map f) := by
  intro t ht
  obtain ⟨x, -, rfl⟩ := List.mem_map.mp ht
  exact hf x

end NoUser

theorem Live.insert {clients : Clients} {ts : List Task} (h : Live clients ts)
    (client : ClientConnection) : Live (clients.insert client) ts := by
  intro t ht fd hfd
  by_cases hsame : fd = client.fd
  · rw [hsame, Clients.find?_insert_self]
    nofun
  · rw [Clients.find?_insert_of_ne hsame]
    exact h t ht fd hfd

namespace Gateway
variable {n : ℕ} {g g' : Gateway n} {a : Answer} {t : Task} {new rest : List Task}
  {clients : Clients} {fd : Fd}

/-- A reference is taken where the connection is looked up. -/
theorem networkStep_reference (h : networkStep a g = some g')
    (hnet : g.network = .clientRead fd :: rest ∨ g.network = .clientWrite fd :: rest) :
    g'.network = rest ∨ g.clients.find? fd ≠ none := by
  unfold networkStep at h
  rcases hnet with hnet | hnet <;>
  · rw [hnet] at h
    cases a <;> try cases h
    cases hfind : g.clients.find? fd with
    | none =>
      dsimp only at h
      rw [hfind] at h
      cases h
      exact .inl rfl
    | some client => exact .inr nofun

/-- The write of a REJECT fails in the middle of a batch of lines. -/
def failsReject (g : Gateway n) : Choice → Bool
  | .network (.wrote .failed) =>
    match g.network with
    | .flush _ :: .eraseLine _ _ :: _ => true
    | _ => false
  | _ => false

theorem Does.tidy (h : Does g a t new clients) (hnet : g.network = t :: rest)
    (htidy : Tidy (t :: rest)) (hsafe : g.failsReject (.network a) = false) :
    Tidy (new ++ rest) := by
  obtain ⟨hrest, hhead⟩ := htidy
  cases h with
  | enter | leave _ => exact NoUser.tidy_append hhead hrest (by simp [NoUser, Task.user])
  | drain batch => exact NoUser.tidy_append hhead hrest (.map (fun _ => rfl) batch)
  | wait events => exact NoUser.tidy_append hhead hrest (.map (fun _ => rfl) events)
  | listening | hungUp | accepted _ | ended | readFailed =>
    exact NoUser.tidy_append hhead hrest (by simp [NoUser, Task.user])
  | ready => exact NoUser.tidy_append hhead hrest (by split_ifs <;> simp [NoUser, Task.user])
  | deliver _ | write => exact ⟨hrest, .inl hhead⟩
  | read | chunk _ | readAll => exact ⟨hrest, hhead⟩
  | line _ _ => exact ⟨⟨⟨hrest, hhead⟩, trivial⟩, _, _, rfl⟩
  | reject _ => exact ⟨hrest, .inr hhead⟩
  | command | retry _ => exact ⟨hrest, trivial⟩
  | sent _ => exact ⟨hrest, hhead⟩
  | writeFailed =>
    refine ⟨hrest, hhead.resolve_right ?_⟩
    rintro ⟨count, us, rfl⟩
    rw [failsReject, hnet] at hsafe
    cases hsafe
  | _ => exact hrest

theorem Does.live (h : Does g a t new clients) (htidy : Tidy (t :: rest))
    (hlive : Live g.clients (t :: rest))
    (hfind : ∀ fd, t = .clientRead fd ∨ t = .clientWrite fd → new = [] ∨
      g.clients.find? fd ≠ none) : Live clients (new ++ rest) := by
  obtain ⟨hhead, hrest⟩ : (∀ fd, t.user = some fd → g.clients.find? fd ≠ none) ∧
      Live g.clients rest := List.forall_mem_cons.mp hlive
  have hfront : ∀ {clients : Clients}, Live clients new → Live clients rest →
      Live clients (new ++ rest) := fun hnew hrest x hx =>
    (List.mem_append.mp hx).elim (hnew x) (hrest x)
  have hkept : ∀ x : Task, x.user = t.user → Live g.clients [x] := by
    intro x hx y hy fd hfd
    rw [List.mem_singleton.mp hy, hx] at hfd
    exact hhead fd hfd
  cases h with
  | enter | leave _ | listening | hungUp | ended | readFailed | acceptedAll | command | retry _ |
      writeFailed =>
    exact hfront (NoUser.live (by simp [NoUser, Task.user]) _) hrest
  | drain batch => exact hfront (NoUser.live (.map (fun _ => rfl) batch) _) hrest
  | wait events => exact hfront (NoUser.live (.map (fun _ => rfl) events) _) hrest
  | ready =>
    exact hfront (NoUser.live (by split_ifs <;> simp [NoUser, Task.user]) _) hrest
  | @deliver resp client _ =>
    refine hfront (fun x hx fd hfd => ?_) (hrest.insert _)
    cases List.mem_singleton.mp hx
    cases hfd
    rw [Clients.find?_insert_self]
    nofun
  | accepted _ => exact hfront (NoUser.live (by simp [NoUser, Task.user]) _) (hrest.insert _)
  | @read fd =>
    refine hfront (fun x hx fd' hfd => ?_) hrest
    cases List.mem_singleton.mp hx
    cases hfd
    exact (hfind fd (.inl rfl)).resolve_left (List.cons_ne_nil _ _)
  | @write fd =>
    refine hfront (fun x hx fd' hfd => ?_) hrest
    cases List.mem_singleton.mp hx
    cases hfd
    exact (hfind fd (.inr rfl)).resolve_left (List.cons_ne_nil _ _)
  | @chunk fd _ _ _ => exact hfront ((hkept (.readChunks fd) rfl).insert _) (hrest.insert _)
  | @reject fd _ _ _ _ _ _ => exact hfront ((hkept (.flush fd) rfl).insert _) (hrest.insert _)
  | @sent fd _ _ _ => exact hfront ((hkept (.flush fd) rfl).insert _) (hrest.insert _)
  | @readAll fd => exact hfront (hkept (.lines fd) rfl) hrest
  | line _ _ =>
    refine hfront (fun x hx fd hfd => hhead fd ?_) hrest
    rcases List.mem_cons.mp hx with rfl | hx
    · exact hfd
    rcases List.mem_cons.mp hx with rfl | hx
    · exact hfd
    · rwa [List.mem_singleton.mp hx] at hfd
  | erase _ => exact hrest.insert _
  | close | cleanUp => exact NoUser.live htidy.2 _
  | _ => exact hrest

/-- Whatever has a reference has it to an open connection. -/
def Sound (g : Gateway n) : Prop := Tidy g.network ∧ Live g.clients g.network

theorem Sound.move {c : Choice} (h : g.Sound) (hstep : step c g = some g')
    (hsafe : g.failsReject c = false) : g'.Sound := by
  obtain ⟨htidy, hlive⟩ := h
  cases c with
  | stop =>
    cases hstep
    exact ⟨htidy, hlive⟩
  | network a =>
    obtain ⟨⟨t, new, rest, hnet, hnet', hdoes⟩, -⟩ := networkStep_does hstep
    rw [hnet] at htidy hlive
    rw [Sound, hnet']
    refine ⟨hdoes.tidy hnet htidy hsafe, hdoes.live htidy hlive fun fd ht => ?_⟩
    have hback : g.network = .clientRead fd :: rest ∨ g.network = .clientWrite fd :: rest := by
      rcases ht with rfl | rfl
      · exact .inl hnet
      · exact .inr hnet
    refine (networkStep_reference hstep hback).imp (fun hsame => ?_) id
    rw [hnet'] at hsame
    exact List.append_left_eq_self.mp hsame
  | matching popped =>
    have hmove : g.MatchingMove {} g' (g.recordMatching {}) := matchingStep_move hstep
    rw [Sound, hmove.network_eq, hmove.clients_eq]
    exact ⟨htidy, hlive⟩

/-- What is done next has a reference to a connection that is gone. -/
def Dangles (g : Gateway n) : Prop :=
  ∃ fd ∈ g.network.head?.bind Task.user, g.clients.find? fd = none

instance (g : Gateway n) : Decidable g.Dangles := inferInstanceAs (Decidable (∃ _ ∈ _, _))

theorem Sound.not_dangles (h : g.Sound) : ¬ g.Dangles := by
  rintro ⟨fd, hfd, hgone⟩
  obtain ⟨t, ht, hfd⟩ := Option.bind_eq_some_iff.mp hfd
  exact h.2 t (List.mem_of_mem_head? ht) fd hfd hgone

/-- The first write of a REJECT that fails leaves the line loop without its connection. -/
theorem Sound.dangles {c : Choice} (h : g.Sound) (hfails : g.failsReject c)
    (hstep : step c g = some g') :
    ∃ g'', step (.network .none) g' = some g'' ∧ g''.Dangles := by
  unfold failsReject at hfails
  split at hfails
  case h_2 => cases hfails
  split at hfails
  case h_2 => cases hfails
  rename_i fd fd' count rest hnet
  have hsame : fd' = fd := by
    have htidy := h.1
    rw [hnet] at htidy
    rcases htidy.2 with hno | ⟨count', us, hus⟩
    · cases hno _ List.mem_cons_self
    · cases hus
      rfl
  subst hsame
  obtain ⟨⟨t, new, rest', hnet', hnew, hdoes⟩, -⟩ := networkStep_does hstep
  rw [hnet] at hnet'
  cases hnet'
  generalize g'.clients = clients at hdoes
  cases hdoes
  refine ⟨{ g' with clients := g'.clients.erase fd', network := .eraseLine fd' count :: rest }, ?_,
    fd', rfl, Clients.find?_erase_self _ _⟩
  show networkStep .none g' = _
  unfold networkStep
  rw [hnew]
  rfl

end Gateway

/-- In a run in which no write of a REJECT for a malformed line meets a hard error, whatever is about
    to use a connection finds it, and when a connection is about to be closed nothing behind that has
    a reference any more. The first such write that fails ends this two steps later. -/
theorem closed_never_used (queueCapacity : UInt64) (book : PoolOrderBook) (serverFd : Fd)
    {ms : List (Move (Gateway _) Choice)} {g : Gateway _}
    (h : Trace Gateway.step (.start queueCapacity book serverFd) ms g)
    (hsafe : ∀ m ∈ ms, m.before.failsReject m.choice = false) :
    ¬ g.Dangles ∧
    (∀ fd rest, g.network = .closeConnection fd :: rest → ∀ t ∈ rest, t.user = none) ∧
    ∀ c g', Gateway.step c g = some g' → g.failsReject c →
      ∃ g'', Gateway.step (.network .none) g' = some g'' ∧ g''.Dangles := by
  have hstart : (Gateway.start queueCapacity book serverFd).Sound := by
    refine ⟨⟨trivial, nofun⟩, ?_⟩
    simp [Live, Gateway.start, Task.user]
  have hsound : g.Sound :=
    h.invariant (fun _ _ _ hs hstep hP => hs.move hstep hP) hstart hsafe
  refine ⟨hsound.not_dangles, fun fd rest hnet => ?_, fun c g' hstep hfails =>
    hsound.dangles hfails hstep⟩
  have htidy := hsound.1
  rw [hnet] at htidy
  exact htidy.2

theorem closed_never_used_rejectLine :
    ¬ ((play Gateway.step (Gateway.start 1 (.ctor 1) 3) (clientSends "A\n" ++ rejectLine)).get
      (by decide)).Dangles :=
  (closed_never_used 1 (.ctor 1) 3 (.of_play (Option.some_get _).symm) (by decide)).1

/-- The REJECT of a malformed line meets a hard error. -/
def rejectFails : List Choice := clientSends "A\n" ++
  [.network .none, .network (.clock 0 0), .network (.wrote .failed), .network .none]

/-- The line loop goes on without its connection. -/
theorem closed_used : ¬ ∀ (queueCapacity : UInt64) (book : PoolOrderBook) (serverFd : Fd)
    (ms : List (Move (Gateway _) Choice)) (g : Gateway _),
    Trace Gateway.step (.start queueCapacity book serverFd) ms g → ¬ g.Dangles := by
  intro h
  obtain ⟨hplays, hdangles⟩ : ∃ h : (play Gateway.step (.start 1 (.ctor 1) 3) rejectFails).isSome,
    ((play Gateway.step (.start 1 (.ctor 1) 3) rejectFails).get h).Dangles := by decide
  exact h 1 (.ctor 1) 3 _ _ (.of_play (Option.some_get hplays).symm) hdangles

end Titan
