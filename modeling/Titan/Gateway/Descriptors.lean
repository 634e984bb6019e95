import Titan.Gateway.Deadlock
import Titan.Gateway.Tasks

/-! Whatever `start` opens it closes, once.

    A run takes descriptors from `socket`, `epoll_create1` and `accept` and gives them back through
    `close`. The account of a run lists both, and what it does not list as closed is held: by an entry
    of the clients, or by the server until `start` returns. -/

namespace Titan
open Schemes

/-! ### Setting up -/

/-- What the operating system answers to `setup_server_socket`. -/
structure SocketAnswers where
  socket : Option Fd
  bind : Bool
  listen : Bool
  epollCreate : Option Fd
  epollAdd : Bool

/-- The descriptors that were opened and closed so far, each as often as that happened. -/
structure Account where
  opened : List Fd := []
  closed : List Fd := []

/-- What `setup_server_socket` returns, and the server's two descriptors; `none` stands for `-1`. -/
structure SocketSetup where
  ok : Bool
  serverFd : Option Fd
  epollFd : Option Fd
  account : Account

/-- The options of the socket are set without a look at what comes of it. -/
def setupServerSocket (os : SocketAnswers) : SocketSetup :=
  match os.socket with
  | none => ⟨false, none, none, {}⟩
  | some serverFd =>
    if os.bind = false then ⟨false, none, none, ⟨[serverFd], [serverFd]⟩⟩
    else if os.listen = false then ⟨false, none, none, ⟨[serverFd], [serverFd]⟩⟩
    else
      match os.epollCreate with
      | none => ⟨false, none, none, ⟨[serverFd], [serverFd]⟩⟩
      | some epollFd =>
        if os.epollAdd = false
        then ⟨false, none, none, ⟨[serverFd, epollFd], [epollFd, serverFd]⟩⟩
        else ⟨true, some serverFd, some epollFd, ⟨[serverFd, epollFd], []⟩⟩

/-- A failed setup has closed what it opened, and a successful one holds two descriptors. -/
theorem setupServerSocket_account (os : SocketAnswers) :
    ((setupServerSocket os).ok = false ∧ (setupServerSocket os).serverFd = none ∧
      (setupServerSocket os).epollFd = none ∧
      (setupServerSocket os).account.opened.Perm (setupServerSocket os).account.closed) ∨
    ∃ serverFd epollFd,
      setupServerSocket os = ⟨true, some serverFd, some epollFd, ⟨[serverFd, epollFd], []⟩⟩ := by
  obtain ⟨socket, bind, listen, epollCreate, epollAdd⟩ := os
  cases socket with
  | none => exact .inl ⟨rfl, rfl, rfl, .nil⟩
  | some serverFd =>
    cases bind with
    | false => exact .inl ⟨rfl, rfl, rfl, .refl _⟩
    | true =>
      cases listen with
      | false => exact .inl ⟨rfl, rfl, rfl, .refl _⟩
      | true =>
        cases epollCreate with
        | none => exact .inl ⟨rfl, rfl, rfl, .refl _⟩
        | some epollFd =>
          cases epollAdd with
          | false => exact .inl ⟨rfl, rfl, rfl, .swap ..⟩
          | true => exact .inr ⟨serverFd, epollFd, rfl⟩

/-! ### Clients -/

namespace Clients
variable {cs : Clients} {client : ClientConnection} {fd : Fd}

/-- The descriptors of the open connections. -/
def fds (cs : Clients) : List Fd := cs.entries.entries.map (·.1)

theorem mem_fds : fd ∈ cs.fds ↔ cs.find? fd ≠ none := by
  rw [fds, List.mem_map, Option.ne_none_iff_exists']
  constructor
  · rintro ⟨e, he, rfl⟩
    exact ⟨e.2, SortedMap.find?_eq_some_iff_mem.mpr he⟩
  · rintro ⟨c, hc⟩
    exact ⟨(fd, c), SortedMap.find?_eq_some_iff_mem.mp hc, rfl⟩

theorem fds_nodup (cs : Clients) : cs.fds.Nodup := cs.entries.keys_nodup

/-- Connections with the same descriptors. -/
theorem fds_perm {ds : Clients} (h : ∀ fd, cs.find? fd ≠ none ↔ ds.find? fd ≠ none) :
    cs.fds.Perm ds.fds :=
  (List.perm_ext_iff_of_nodup cs.fds_nodup ds.fds_nodup).mpr fun fd => by
    rw [mem_fds, mem_fds, h fd]

theorem fds_insert (h : cs.find? client.fd = none) :
    (cs.insert client).fds.Perm (client.fd :: cs.fds) :=
  (SortedMap.perm_insert (.refl _) h client).map _

/-- A connection that was there is replaced. -/
theorem fds_insert_of_mem {c : ClientConnection} (h : cs.find? client.fd = some c) :
    (cs.insert client).fds.Perm cs.fds := by
  refine fds_perm fun fd => ?_
  by_cases hfd : fd = client.fd
  · simp [hfd, find?_insert_self, h]
  · rw [find?_insert_of_ne hfd]

theorem fds_erase {c : ClientConnection} (h : cs.find? fd = some c) :
    cs.fds.Perm (fd :: (cs.erase fd).fds) := by
  obtain ⟨pre, post, hm⟩ := SortedMap.find?_eq_some_iff.mp h
  have hkeep : (cs.erase fd).entries.entries = pre ++ post := SortedMap.entries_erase_of_cut hm
  rw [fds, fds, hm, hkeep, List.map_append, List.map_append, List.map_cons]
  exact List.perm_middle

theorem fds_erase_of_none (h : cs.find? fd = none) : (cs.erase fd).fds.Perm cs.fds := by
  refine fds_perm fun fd' => ?_
  by_cases hfd : fd' = fd
  · simp [hfd, find?_erase_self, h]
  · rw [find?_erase_of_ne hfd]

end Clients

/-! ### Runs -/

/-- The end of the loop of `start`, or of `start` itself. -/
def Task.ends : Task → Bool
  | .whileRunning | .cleanup => true
  | _ => false

namespace Gateway
variable {n : ℕ} {g g' : Gateway n} {a : Answer} {t : Task} {new rest : List Task}
  {clients : Clients}

/-- What the network thread opens with its next step. -/
def opens (g : Gateway n) : Answer → List Fd
  | .accepted (some fd) =>
    match g.network with
    | .acceptConnections :: _ => [fd]
    | _ => []
  | _ => []

/-- What it closes with its next step: the clean-up closes all connections and the two descriptors of
    the server. -/
def closes (g : Gateway n) (epollFd : Fd) : List Fd :=
  match g.network with
  | .closeConnection fd :: _ => if (g.clients.find? fd).isSome then [fd] else []
  | .cleanup :: _ => g.clients.fds ++ [epollFd, g.serverFd]
  | _ => []

/-- What is open: the connections, and the server's own descriptors until `start` returns. -/
def held (g : Gateway n) (epollFd : Fd) : List Fd :=
  g.clients.fds ++ if g.network = [] then [] else [epollFd, g.serverFd]

end Gateway

def Account.record {n : ℕ} (epollFd : Fd) (acc : Account) (m : Move (Gateway n) Choice) : Account :=
  match m.choice with
  | .network a => ⟨acc.opened ++ m.before.opens a, acc.closed ++ m.before.closes epollFd⟩
  | .stop | .matching _ => acc

namespace Gateway
variable {n : ℕ} {g g' : Gateway n} {a : Answer} {t : Task} {new rest : List Task}
  {clients : Clients}

/-- `start` has not returned, and returns with the last task; or it has, without connections. -/
inductive Closing (g : Gateway n) : Prop
  | runs {ts : List Task} {last : Task} : g.network = ts ++ [last] → (∀ t ∈ ts, t.ends = false) →
      last.ends = true → Closing g
  | returned : g.network = [] → g.clients.fds = [] → Closing g

theorem Does.not_ends (h : Does g a t new clients) (ht : t.ends = false) :
    ∀ x ∈ new, x.ends = false := by
  cases h with
  | enter | leave _ | cleanUp => cases ht
  | drain batch =>
    intro x hx
    obtain ⟨resp, -, rfl⟩ := List.mem_map.mp hx
    rfl
  | wait events =>
    intro x hx
    obtain ⟨e, -, rfl⟩ := List.mem_map.mp hx
    rfl
  | ready => split_ifs <;> simp [Task.ends]
  | _ => simp [Task.ends]

theorem Closing.network (h : Closing g) (hstep : networkStep a g = some g') : Closing g' := by
  obtain ⟨⟨t, new, rest, hnet, hnet', hdoes⟩, -⟩ := networkStep_does hstep
  cases h with
  | @runs ts last htasks hts hlast =>
    rw [hnet] at htasks
    cases ts with
    | nil =>
      cases htasks
      generalize hclients : g'.clients = clients at hdoes
      cases hdoes with
      | enter =>
        have hloop : g'.network =
          [.drainResponses, .epollWait, .drainResponses] ++ [.whileRunning] := hnet'
        exact .runs hloop (by simp [Task.ends]) rfl
      | leave =>
        have hend : g'.network = [.join, .drainResponses] ++ [.cleanup] := hnet'
        exact .runs hend (by simp [Task.ends]) rfl
      | cleanUp => exact .returned hnet' (by rw [hclients]; rfl)
      | _ => cases hlast
    | cons u us =>
      rw [List.cons_append] at htasks
      obtain ⟨rfl, rfl⟩ := List.cons.inj htasks
      obtain ⟨hu, hus⟩ := List.forall_mem_cons.mp hts
      rw [← List.append_assoc] at hnet'
      refine .runs hnet' (fun x hx => ?_) hlast
      exact (List.mem_append.mp hx).elim (hdoes.not_ends hu x) (hus x)
  | returned htasks _ =>
    rw [hnet] at htasks
    cases htasks

theorem Closing.of_cleanup {rest : List Task} (h : Closing g)
    (hnet : g.network = .cleanup :: rest) : rest = [] := by
  cases h with
  | @runs ts last htasks hts _ =>
    rw [hnet] at htasks
    cases ts with
    | nil =>
      cases htasks
      rfl
    | cons u us =>
      obtain ⟨rfl, -⟩ := List.cons.inj htasks
      cases hts _ List.mem_cons_self
  | returned htasks _ =>
    rw [hnet] at htasks
    cases htasks

/-- Only the clean-up is the last task. -/
theorem Closing.goes_on (h : Closing g) (hnet : g.network = t :: rest) (ht : t ≠ .cleanup)
    (hdoes : Does g a t new clients) : new ++ rest ≠ [] := by
  cases h with
  | @runs ts last htasks hts hlast =>
    rw [hnet] at htasks
    cases ts with
    | nil =>
      cases htasks
      cases hdoes with
      | enter | leave _ => exact List.cons_ne_nil _ _
      | cleanUp => exact absurd rfl ht
      | _ => cases hlast
    | cons u us =>
      obtain ⟨-, rfl⟩ := List.cons.inj htasks
      simp
  | returned htasks _ =>
    rw [hnet] at htasks
    cases htasks

/-- What a step opens, closes and leaves open among the connections. -/
theorem networkStep_fds {epollFd : Fd} (hstep : networkStep a g = some g')
    (hclean : ∀ rest, g.network ≠ .cleanup :: rest) :
    (g.clients.fds ++ g.opens a).Perm (g.closes epollFd ++ g'.clients.fds) := by
  obtain ⟨⟨t, new, rest, hnet, -, hdoes⟩, -⟩ := networkStep_does hstep
  have hinsert : ∀ {fd : Fd} {c c' : ClientConnection}, g.clients.find? fd = some c →
      c'.fd = c.fd → (g.clients.fds ++ []).Perm ([] ++ (g.clients.insert c').fds) := by
    intro fd c c' hfind hfd
    have hfind' : g.clients.find? c'.fd = some c := by
      rw [hfd, Clients.fd_of_find? hfind, hfind]
    rw [List.append_nil]
    exact (Clients.fds_insert_of_mem hfind').symm
  generalize g'.clients = clients at hdoes
  cases hdoes with
  | @accepted fd hnew =>
    simp only [opens, closes, hnet]
    have hinsert : (g.clients.insert { fd := fd }).fds.Perm (fd :: g.clients.fds) :=
      Clients.fds_insert hnew
    exact List.perm_append_comm.trans hinsert.symm
  | @close fd =>
    simp only [opens, closes, hnet, List.append_nil]
    cases hfind : g.clients.find? fd with
    | none => exact (Clients.fds_erase_of_none hfind).symm
    | some c => exact Clients.fds_erase hfind
  | deliver hfind | chunk hfind | reject hfind | erase hfind | sent hfind =>
    simp only [opens, closes, hnet]
    exact hinsert hfind rfl
  | cleanUp => exact absurd hnet (hclean rest)
  | _ =>
    simp only [opens, closes, hnet]
    rw [List.append_nil, List.nil_append]

theorem NetworkMove.serverFd_eq {log log' : Log} (h : g.NetworkMove log g' log') :
    g'.serverFd = g.serverFd := by
  cases h <;> rfl

theorem MatchingMove.serverFd_eq {log log' : Log} (h : g.MatchingMove log g' log') :
    g'.serverFd = g.serverFd := by
  cases h <;> rfl

/-- What is open before a step and what the step opens is what it closes and what is open then. -/
theorem networkStep_held {epollFd : Fd} (h : Closing g) (hstep : networkStep a g = some g') :
    (g.held epollFd ++ g.opens a).Perm (g.closes epollFd ++ g'.held epollFd) := by
  have hmove : g.NetworkMove {} g' (g.recordNetwork {} a) := networkStep_move hstep
  obtain ⟨⟨t, new, rest, hnet, hnet', hdoes⟩, -⟩ := networkStep_does hstep
  have hne : g.network ≠ [] := by simp [hnet]
  rw [held, held, if_neg hne, hmove.serverFd_eq]
  by_cases ht : t = .cleanup
  · -- the last task closes all
    subst ht
    cases h.of_cleanup hnet
    generalize hclients : g'.clients = clients at hdoes
    cases hdoes
    simp [opens, closes, hnet, hnet', Clients.fds, Clients.empty, SortedMap.empty]
  · have hne' : g'.network ≠ [] := by
      rw [hnet']
      exact h.goes_on hnet ht hdoes
    have hfds : (g.clients.fds ++ g.opens a).Perm (g.closes epollFd ++ g'.clients.fds) := by
      refine networkStep_fds hstep fun rest' hclean => ht ?_
      rw [hnet] at hclean
      exact (List.cons.inj hclean).1
    rw [if_neg hne', List.append_assoc, ← List.append_assoc (g.closes epollFd)]
    exact (List.perm_append_comm.append_left _).trans
      ((List.append_assoc .. ▸ hfds.append_right [epollFd, g.serverFd]))

end Gateway

/-- What was opened was closed or is open. -/
structure Accounted {n : ℕ} (epollFd : Fd) (g : Gateway n) (acc : Account) : Prop where
  closing : g.Closing
  balanced : acc.opened.Perm (acc.closed ++ g.held epollFd)

namespace Accounted
variable {n : ℕ} {epollFd : Fd} {g g' : Gateway n} {acc : Account}

theorem move {c : Choice} (h : Accounted epollFd g acc) (hstep : Gateway.step c g = some g') :
    Accounted epollFd g' (acc.record epollFd ⟨g, c, g'⟩) := by
  obtain ⟨hclosing, hbalanced⟩ := h
  cases c with
  | stop =>
    cases hstep
    refine ⟨?_, hbalanced⟩
    cases hclosing with
    | runs htasks hts hlast => exact .runs htasks hts hlast
    | returned htasks hfds => exact .returned htasks hfds
  | network a =>
    refine ⟨hclosing.network hstep, ?_⟩
    have hheld : (g.held epollFd ++ g.opens a).Perm (g.closes epollFd ++ g'.held epollFd) :=
      Gateway.networkStep_held hclosing hstep
    show (acc.opened ++ g.opens a).Perm (acc.closed ++ g.closes epollFd ++ g'.held epollFd)
    have hall := hbalanced.append_right (g.opens a)
    rw [List.append_assoc] at hall ⊢
    exact hall.trans (hheld.append_left _)
  | matching popped =>
    have hmove : g.MatchingMove {} g' (g.recordMatching {}) := Gateway.matchingStep_move hstep
    refine ⟨?_, ?_⟩
    · cases hclosing with
      | runs htasks hts hlast => exact .runs (hmove.network_eq.trans htasks) hts hlast
      | returned htasks hfds =>
        refine .returned (hmove.network_eq.trans htasks) ?_
        rw [hmove.clients_eq, hfds]
    · rw [Gateway.held, hmove.network_eq, hmove.clients_eq, hmove.serverFd_eq]
      exact hbalanced

end Accounted

/-- Whatever the operating system answers, `start` closes all that it opened: at once where the setup
    fails, and else by the time it returns. In between each descriptor was closed as often as it was
    opened, but for those that are open. -/
theorem start_closes_all (queueCapacity : UInt64) (book : PoolOrderBook) (os : SocketAnswers) :
    let setup := setupServerSocket os
    (setup.ok = false → setup.serverFd = none ∧ setup.epollFd = none ∧
      setup.account.opened.Perm setup.account.closed) ∧
    ∀ serverFd epollFd, setup.serverFd = some serverFd → setup.epollFd = some epollFd →
      ∀ ms g, Trace Gateway.step (.start queueCapacity book serverFd) ms g →
        let acc := ms.foldl (Account.record epollFd) setup.account
        (∀ fd, acc.opened.count fd = acc.closed.count fd + (g.held epollFd).count fd) ∧
        (g.network = [] → acc.opened.Perm acc.closed) := by
  intro setup
  rcases setupServerSocket_account os with ⟨hok, hserver, hepoll, hperm⟩ | ⟨sfd, efd, hsetup⟩
  · refine ⟨fun _ => ⟨hserver, hepoll, hperm⟩, fun serverFd _ hfd => ?_⟩
    rw [hserver] at hfd
    cases hfd
  · have hsetup' : setup = ⟨true, some sfd, some efd, ⟨[sfd, efd], []⟩⟩ := hsetup
    rw [hsetup']
    refine ⟨nofun, ?_⟩
    rintro serverFd epollFd ⟨⟩ ⟨⟩ ms g htrace
    have hacc : Accounted efd g (ms.foldl (Account.record efd) ⟨[sfd, efd], []⟩) := by
      refine htrace.fold_invariant (P := fun _ => True) _ ?_ ?_ fun _ _ => trivial
      · exact fun g acc c g' h hstep _ => h.move hstep
      · have hstart : (Gateway.start queueCapacity book sfd).network = [] ++ [.whileRunning] := rfl
        exact ⟨.runs hstart nofun rfl, .swap ..⟩
    refine ⟨fun fd => ?_, fun hnet => ?_⟩
    · rw [hacc.balanced.count_eq, List.count_append]
    · have hheld : g.held efd = [] := by
        rw [Gateway.held, if_pos hnet, List.append_nil]
        cases hacc.closing with
        | runs htasks _ _ => simp [hnet] at htasks
        | returned _ hfds => exact hfds
      have hall := hacc.balanced
      rwa [hheld, List.append_nil] at hall

/-- A client connects, and the server is stopped while it is there. -/
def connectAndStop : List Choice :=
  [.network .none, .network (.popped 0), .network (.ready [{ fd := 3, readable := true }]),
   .network .none, .network (.accepted (some 5)), .network (.accepted none), .network (.popped 0),
   .stop, .network .none, .matching 0, .matching 0, .network .none, .network (.popped 0),
   .network .none]

theorem connectAndStop_plays :
    (play Gateway.step (Gateway.start 1 (.ctor 1) 3) connectAndStop).isSome := by
  decide

theorem start_closes_all_connectAndStop :
    let acc := (moves Gateway.step (Gateway.start 1 (.ctor 1) 3) connectAndStop).foldl
      (Account.record 4) (setupServerSocket ⟨some 3, true, true, some 4, true⟩).account
    acc.opened = [3, 4, 5] ∧ acc.opened.Perm acc.closed := by
  refine ⟨by decide, ?_⟩
  exact ((start_closes_all 1 (.ctor 1) ⟨some 3, true, true, some 4, true⟩).2 3 4 rfl rfl _ _
    (.of_play (Option.some_get connectAndStop_plays).symm)).2 (by decide)

end Titan
