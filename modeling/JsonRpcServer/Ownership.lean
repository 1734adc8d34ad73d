import JsonRpcServer.Startup

/-!
# Who owns what at startup

A ledger of what libevent and the file system hold for the process. Startup frees
what it took unless it succeeds, in the order libevent asks for, and the handler is
there only when the cookie is.
-/
namespace JsonRpcServer

open Programs

/-- A file that was closed: how much of what was written it took, and whether closing went well. -/
structure ClosedFile where
  path : Bytes
  contents : Bytes
  closedWell : Bool
  deriving DecidableEq, Repr

/-- What is live and open, the files that were closed, and the calls that got something or were
refused it. -/
structure Ledger where
  base : Option EventBase
  http : Option Evhttp
  sockets : List BoundSocket
  file : Option (Bytes × Bytes)
  closed : List ClosedFile
  granted : List StartCall
  refused : List StartCall

def Ledger.new : Ledger := ⟨none, none, [], none, [], [], []⟩

def Ledger.grant (l : Ledger) (c : StartCall) : Ledger := { l with granted := l.granted ++ [c] }
def Ledger.refuse (l : Ledger) (c : StartCall) : Ledger := { l with refused := l.refused ++ [c] }

def Ledger.write (l : Ledger) (data : Bytes) : Ledger :=
  { l with file := l.file.map (fun f => (f.1, f.2 ++ data)) }

def Ledger.close (l : Ledger) (closedWell : Bool) : Ledger :=
  { l with
    file := none
    closed := l.closed ++ (l.file.map (fun f => ⟨f.1, f.2, closedWell⟩)).toList }

/-- Nothing is used that is not live, one base at a time is, and it outlives its server. -/
def owning : Rules starting Ledger where
  allows
    | l, .eventBaseNew => l.base = none
    | l, .evhttpNew base => l.base = some base ∧ l.http = none
    | l, .setTimeout http _ | l, .setMaxHeadersSize http _ | l, .setMaxBodySize http _
    | l, .bindSocket http _ _ | l, .evhttpFree http => l.http = some http
    | l, .eventBaseFree base => l.base = some base ∧ l.http = none
    | l, .fileOpen _ => l.file = none
    | l, .fileWrite path _ | l, .fileClose path => l.file.map Prod.fst = some path
    | _, .localArray _ => True
    | _, .assertionFailed => False
  expects _ _ := True
  after
    | l, .eventBaseNew, some base => { l.grant .eventBaseNew with base := some base }
    | l, .evhttpNew base, some http => { l.grant (.evhttpNew base) with http := some http }
    | l, .bindSocket http address port, some s =>
      { l.grant (.bindSocket http address port) with sockets := l.sockets ++ [s] }
    | l, .fileOpen path, true => { l.grant (.fileOpen path) with file := some (path, []) }
    | l, .fileWrite _ data, taken => l.write (data.take taken.val)
    | l, .fileClose _, closedWell => l.close closedWell
    -- the sockets of a server go with it
    | l, .evhttpFree _, _ => { l with http := none, sockets := [] }
    | l, .eventBaseFree _, _ => { l with base := none }
    | l, .eventBaseNew, none => l.refuse .eventBaseNew
    | l, .evhttpNew base, none => l.refuse (.evhttpNew base)
    | l, .bindSocket http address port, none => l.refuse (.bindSocket http address port)
    | l, .fileOpen path, false => l.refuse (.fileOpen path)
    | l, _, _ => l

/-! ## The cookie -/

theorem getRandBytes_ones (buf : Bytes) {num : Nat} (h : num ≤ buf.length) :
    getRandBytes buf num = List.replicate num 1 ++ buf.drop num := by
  induction num with
  | zero => simp [getRandBytes]
  | succ num ih =>
    have hset : getRandBytes buf (num + 1) = (getRandBytes buf num).set num 1 := by
      simp [getRandBytes, List.range_succ]
    rw [hset, ih (by omega), List.set_append_right _ _ (by simp), List.length_replicate,
      Nat.sub_self, List.drop_eq_getElem_cons (by omega), List.set_cons_zero,
      List.replicate_succ', List.append_assoc, List.singleton_append]

theorem hexStr_eq (bytes : Bytes) : hexStr bytes =
    bytes.flatMap (fun val : UInt8 => [hexmap (val >>> 4), hexmap (val &&& 15)]) := by
  have hfold : ∀ rv : Bytes, bytes.foldl (fun (rv : Bytes) (val : UInt8) =>
      rv ++ [hexmap (val >>> 4)] ++ [hexmap (val &&& 15)]) rv =
      rv ++ bytes.flatMap (fun val : UInt8 => [hexmap (val >>> 4), hexmap (val &&& 15)]) := by
    induction bytes with
    | nil => simp
    | cons val bytes ih =>
      intro rv
      rw [List.foldl_cons, ih]
      simp
  exact hfold []

/-- The same every time. -/
def authCookie : Bytes := cstr "__cookie__:" ++ (List.replicate cookieSize (cstr "01")).flatten

theorem cookie_eq (array : Bytes) (h : array.length = cookieSize) :
    cookieauthUser ++ cstr ":" ++ hexStr (getRandBytes array cookieSize) = authCookie := by
  rw [getRandBytes_ones array h.ge, ← h, List.drop_length, List.append_nil, hexStr_eq, h]
  decide +kernel

/-- Outcomes of `GenerateAuthCookie`: a file that opens is closed again, whatever it took. -/
inductive Generated (l : Ledger) : Except Exception (Option Bytes) → Ledger → Prop where
  | notOpen : Generated l (.ok none) (l.refuse (.fileOpen cookiePath))
  | written (taken : Nat) (closedWell : Bool) : Generated l (.ok (some authCookie))
      { l.grant (.fileOpen cookiePath) with
        file := none
        closed := l.closed ++ [⟨cookiePath, authCookie.take taken, closedWell⟩] }

theorem ensures_generateAuthCookie {v : Variables} {l : Ledger} (hl : l.file = none) :
    Ensures owning generateAuthCookie v l fun r v' l' => v' = v ∧ Generated l r l' := by
  obtain ⟨cookie, hcookie⟩ : ∃ cookie, authCookie = cookie := ⟨_, rfl⟩
  apply ensures_bind
  apply ensures_call trivial
  intro array _
  dsimp only
  rw [cookie_eq array.val array.property, hcookie]
  apply ensures_bind
  apply ensures_call hl
  rintro (_ | _) -
  · exact ⟨rfl, .notOpen⟩
  apply ensures_bind
  apply ensures_call rfl
  intro taken _
  apply ensures_bind
  apply ensures_call rfl
  intro closedWell _
  refine ⟨rfl, ?_⟩
  have hwritten := Generated.written (l := l) taken.val closedWell
  rw [hcookie] at hwritten
  exact hwritten

/-! ## Binding -/

/-- Every endpoint has got a socket or was refused. -/
structure Binds (http : Evhttp) (endpoints : List (Bytes × UInt16)) (sockets : List BoundSocket)
    (granted refused : List StartCall) : Prop where
  each : sockets.length + refused.length = endpoints.length
  got : granted.length = sockets.length
  granted : granted.Sublist (endpoints.map (bindCall http))
  refused : refused.Sublist (endpoints.map (bindCall http))

theorem Binds.nil {http : Evhttp} : Binds http [] [] [] [] := ⟨rfl, rfl, .refl [], .refl []⟩

section
variable {http : Evhttp} {bound : List (Bytes × UInt16)} {sockets : List BoundSocket}
  {granted refused : List StartCall}

theorem Binds.socket (h : Binds http bound sockets granted refused) (i : Bytes × UInt16)
    (s : BoundSocket) :
    Binds http (bound ++ [i]) (sockets ++ [s]) (granted ++ [bindCall http i]) refused where
  each := by simp [← h.each]; omega
  got := by simp [h.got]
  granted := by
    rw [List.map_append]
    exact h.granted.append (.refl _)
  refused := by
    rw [List.map_append]
    exact h.refused.trans (List.sublist_append_left _ _)

theorem Binds.refuse (h : Binds http bound sockets granted refused) (i : Bytes × UInt16) :
    Binds http (bound ++ [i]) sockets granted (refused ++ [bindCall http i]) where
  each := by simp [← h.each]; omega
  got := h.got
  granted := by
    rw [List.map_append]
    exact h.granted.trans (List.sublist_append_left _ _)
  refused := by
    rw [List.map_append]
    exact h.refused.append (.refl _)

theorem Binds.all_refused (h : Binds http bound [] granted refused) :
    granted = [] ∧ refused = bound.map (bindCall http) :=
  ⟨List.length_eq_zero_iff.mp h.got, h.refused.eq_of_length (by simpa using h.each)⟩

end

theorem ensures_httpBindAddresses {http : Evhttp} {v : Variables} {l : Ledger}
    (hv : v.boundSockets = []) (hl : l.http = some http) (hs : l.sockets = [])
    (hr : l.refused = []) :
    Ensures owning (httpBindAddresses http) v l fun r v' l' => ∃ sockets granted refused,
      Binds http endpoints sockets granted refused ∧ r = .ok !sockets.isEmpty ∧
      v' = { v with boundSockets := sockets } ∧
      l' = { l with sockets := sockets, granted := l.granted ++ granted, refused := refused } := by
  apply ensures_bind
  apply ensures_forM (fun bound v' l' => ∃ sockets granted refused,
    Binds http bound sockets granted refused ∧ v' = { v with boundSockets := sockets } ∧
    l' = { l with sockets := sockets, granted := l.granted ++ granted, refused := refused }) []
  · rintro bound i _ _ ⟨sockets, granted, refused, hbinds, rfl, rfl⟩
    apply ensures_bind
    apply ensures_call hl
    intro bindHandle _
    cases bindHandle with
    | some s =>
      apply ensures_modify
      refine ⟨sockets ++ [s], granted ++ [bindCall http i], refused, hbinds.socket i s, rfl, ?_⟩
      simp [owning, Ledger.grant, bindCall]
    | none =>
      apply ensures_pure
      exact ⟨sockets, granted, refused ++ [bindCall http i], hbinds.refuse i, rfl, rfl⟩
  · rintro _ _ ⟨sockets, granted, refused, hbinds, rfl, rfl⟩
    apply ensures_bind
    apply ensures_get
    apply ensures_pure
    exact ⟨sockets, granted, refused, hbinds, rfl, rfl, rfl⟩
  · exact ⟨[], [], [], .nil, by rw [← hv], by cases l; simp_all⟩

/-! ## The outcomes -/

/-- A server that is ready to serve, and what is held for it. -/
def Variables.serving (base : EventBase) (http : Evhttp) (sockets : List BoundSocket) : Variables :=
  { Variables.new with eventBase := some base, eventHTTP := some http, boundSockets := sockets }

def Ledger.holding (base : EventBase) (http : Evhttp) (sockets : List BoundSocket)
    (granted refused : List StartCall) : Ledger :=
  { Ledger.new with
    base := some base
    http := some http
    sockets := sockets
    granted := .eventBaseNew :: .evhttpNew base :: granted
    refused := refused }

/-- Outcomes of `InitHTTPServer`: unless it returns true, nothing is held or remembered. -/
inductive Initialized : Except Exception Bool → Variables → Ledger → Prop where
  | noBase : Initialized (.error (.std (cstr "cannot create event_baase"))) .new
      { Ledger.new with refused := [.eventBaseNew] }
  | noHttp (base : EventBase) : Initialized (.error (.std (cstr "cannot create evhttp"))) .new
      { Ledger.new with granted := [.eventBaseNew], refused := [.evhttpNew base] }
  | notBound (base : EventBase) (http : Evhttp) : Initialized (.ok false) .new
      { Ledger.new with
        granted := [.eventBaseNew, .evhttpNew base]
        refused := endpoints.map (bindCall http) }
  | bound (base : EventBase) {http : Evhttp} {sockets : List BoundSocket}
      {granted refused : List StartCall} (hsome : sockets ≠ [])
      (hbinds : Binds http endpoints sockets granted refused) : Initialized (.ok true)
      (.serving base http sockets) (.holding base http sockets granted refused)

theorem ensures_initHTTPServer : Ensures owning initHTTPServer .new .new Initialized := by
  apply ensures_leaving
  apply ensures_bind
  apply ensures_bind
  apply ensures_call rfl
  rintro (_ | base) -
  · apply ensures_throw
    exact .noBase
  apply ensures_pure
  apply ensures_bind
  apply ensures_modify
  apply ensures_bind
  apply ensures_bind
  apply ensures_call (And.intro rfl rfl)
  rintro (_ | http) -
  · apply ensures_throw
    exact ⟨⟨rfl, rfl⟩, fun _ _ => .noHttp base⟩
  apply ensures_pure
  apply ensures_bind
  apply ensures_modify
  apply ensures_bind
  apply ensures_call rfl
  intro _ _
  apply ensures_bind
  apply ensures_call rfl
  intro _ _
  apply ensures_bind
  apply ensures_call rfl
  intro _ _
  apply ensures_bind
  apply (ensures_httpBindAddresses rfl rfl rfl rfl).mono
  rintro _ _ _ ⟨sockets, granted, refused, hbinds, rfl, rfl, rfl⟩
  cases sockets with
  | nil =>
    obtain ⟨rfl, rfl⟩ := hbinds.all_refused
    exact ⟨rfl, fun _ _ => ⟨⟨rfl, rfl⟩, fun _ _ => .notBound base http⟩⟩
  | cons s sockets =>
    exact .bound base (List.cons_ne_nil s sockets) hbinds

/-- The server with its cookie, its handler and its timers. -/
def Variables.started (g : Process) (base : EventBase) (http : Evhttp)
    (sockets : List BoundSocket) : Variables :=
  { Variables.serving base http sockets with
    strRPCUserColonPass := authCookie
    pathHandlers := [⟨cstr "/", true, fun _ => httpReqJsonrpc g⟩]
    httpRPCTimerInterface := some ⟨base⟩
    timerInterface := some ⟨base⟩ }

/-- Outcomes of `StartHTTPRPC` on a server that is ready. -/
inductive RpcStarted (g : Process) (base : EventBase) (http : Evhttp) (sockets : List BoundSocket)
    (granted refused : List StartCall) : Except Exception Bool → Variables → Ledger → Prop where
  | noCookie : RpcStarted g base http sockets granted refused (.ok false)
      (.serving base http sockets)
      (.holding base http sockets granted (refused ++ [.fileOpen cookiePath]))
  | started (taken : Nat) (closedWell : Bool) :
      RpcStarted g base http sockets granted refused (.ok true) (.started g base http sockets)
      { Ledger.holding base http sockets (granted ++ [.fileOpen cookiePath]) refused with
        closed := [⟨cookiePath, authCookie.take taken, closedWell⟩] }

theorem ensures_startHTTPRPC (g : Process) (base : EventBase) (http : Evhttp)
    (sockets : List BoundSocket) (granted refused : List StartCall) :
    Ensures owning (startHTTPRPC g) (.serving base http sockets)
      (.holding base http sockets granted refused)
      (RpcStarted g base http sockets granted refused) := by
  apply ensures_bind
  apply ensures_bind
  apply (ensures_generateAuthCookie rfl).mono
  rintro r v l ⟨rfl, hgenerated⟩
  cases hgenerated with
  | notOpen => exact .noCookie
  | written taken closedWell => exact .started taken closedWell

/-! ## The whole of startup -/

/-- A call to bind one of the endpoints. -/
def Binding (c : StartCall) : Prop := ∃ http, ∃ i ∈ endpoints, c = bindCall http i

/-- Both objects were created, an endpoint was bound and the cookie file opened. -/
structure Equipped (granted : List StartCall) : Prop where
  base : .eventBaseNew ∈ granted
  http : ∃ base, .evhttpNew base ∈ granted
  socket : ∃ c ∈ granted, Binding c
  cookie : .fileOpen cookiePath ∈ granted

/-- What the process answers for when `AppInitServers` is left. -/
structure Accounted (g : Process) (r : Except Exception Bool) (v : Variables) (l : Ledger) :
    Prop where
  base : v.eventBase = l.base
  http : v.eventHTTP = l.http
  sockets : v.boundSockets = l.sockets
  scope : v.baseCtr = none ∧ v.httpCtr = none
  file : l.file = none
  /-- Of the cookie the file has what it took, which nothing asks about. -/
  success : r = .ok true → v.eventBase.isSome ∧ v.eventHTTP.isSome ∧ v.boundSockets ≠ [] ∧
    v.pathHandlers = [⟨cstr "/", true, fun _ => httpReqJsonrpc g⟩] ∧
    v.strRPCUserColonPass = authCookie ∧
    (∃ taken closedWell,
      l.closed = [⟨cookiePath, v.strRPCUserColonPass.take taken, closedWell⟩]) ∧
    v.timerInterface = v.eventBase.map (⟨·⟩)
  failure : r ≠ .ok true → v.pathHandlers = [] ∧ v.timerInterface = none ∧ l.closed = []
  thrown : (∃ e, r = .error e) → v.eventBase = none
  needs : r = .ok true ↔ Equipped l.granted
  /-- All it takes is that the refused calls are to bind, and that one bind is not refused. -/
  refused : r = .ok true ↔ l.refused.length < endpoints.length ∧ ∀ c ∈ l.refused, Binding c

theorem Initialized.accounted {r : Except Exception Bool} {v : Variables} {l : Ledger}
    (h : Initialized r v l) (hr : r ≠ .ok true) (g : Process) : Accounted g r v l := by
  have hbase : ¬ Binding .eventBaseNew := nofun
  have hhttp : ∀ base, ¬ Binding (.evhttpNew base) := nofun
  have hneeds : ¬ Equipped l.granted := by
    rintro ⟨-, -, -, hcookie⟩
    cases h with
    | bound => exact absurd rfl hr
    | noBase | noHttp | notBound => simp [Ledger.new] at hcookie
  cases h with
  | bound => exact absurd rfl hr
  | noBase | noHttp | notBound => constructor <;> simp_all [Variables.new, Ledger.new]

theorem RpcStarted.accounted {g : Process} {base : EventBase} {http : Evhttp}
    {sockets : List BoundSocket} {granted refused : List StartCall} {r : Except Exception Bool}
    {v : Variables} {l : Ledger} (hsome : sockets ≠ [])
    (hbinds : Binds http endpoints sockets granted refused)
    (h : RpcStarted g base http sockets granted refused r v l) : Accounted g r v l := by
  have hpos := List.length_pos_iff.mpr hsome
  have hlt : refused.length < endpoints.length := by
    have heach := hbinds.each
    omega
  have hbinding : ∀ calls : List StartCall, calls.Sublist (endpoints.map (bindCall http)) →
      ∀ c ∈ calls, Binding c := by
    intro calls hcalls c hc
    obtain ⟨i, hi, rfl⟩ := List.mem_map.mp (hcalls.subset hc)
    exact ⟨http, i, hi, rfl⟩
  have hrefused := hbinding refused hbinds.refused
  have hgranted := hbinding granted hbinds.granted
  have hopen : ¬ Binding (.fileOpen cookiePath) := nofun
  cases h with
  | noCookie =>
    have hneeds : ¬ Equipped (.eventBaseNew :: .evhttpNew base :: granted) := by
      rintro ⟨-, -, -, hcookie⟩
      simp only [List.mem_cons, reduceCtorEq, false_or] at hcookie
      exact hopen (hgranted _ hcookie)
    constructor <;> simp [Variables.serving, Variables.new, Ledger.holding, Ledger.new, hopen,
      hneeds]
  | started taken closedWell =>
    have hneeds : Equipped (.eventBaseNew :: .evhttpNew base ::
        (granted ++ [.fileOpen cookiePath])) := by
      obtain ⟨c, hc⟩ := List.exists_mem_of_length_pos (hbinds.got ▸ hpos)
      exact ⟨by simp, ⟨base, by simp⟩, ⟨c, by simp [hc], hgranted c hc⟩, by simp⟩
    constructor
    case success => exact fun _ => ⟨rfl, rfl, hsome, rfl, rfl, ⟨taken, closedWell, rfl⟩, rfl⟩
    all_goals simp +contextual [Variables.started, Variables.serving, Variables.new,
      Ledger.holding, Ledger.new, hlt, hrefused, hneeds]

/-- Whatever libevent and the file system do: nothing is used that is not live, and nothing stays
behind that nobody owns. -/
theorem startup_accounted (g : Process) :
    Ensures owning (appInitServers g) .new .new (Accounted g) := by
  apply ensures_bind
  apply ensures_initHTTPServer.mono
  intro r v l h
  cases h with
  | noBase => exact Initialized.noBase.accounted nofun g
  | noHttp base => exact (Initialized.noHttp base).accounted nofun g
  | notBound base http => exact (Initialized.notBound base http).accounted nofun g
  | @bound base http sockets granted refused hsome hbinds =>
    apply ensures_bind
    apply (ensures_startHTTPRPC g base http sockets granted refused).mono
    intro r v l h
    cases h with
    | noCookie => exact RpcStarted.noCookie.accounted hsome hbinds
    | started taken closedWell =>
      exact (RpcStarted.started taken closedWell).accounted hsome hbinds

end JsonRpcServer
