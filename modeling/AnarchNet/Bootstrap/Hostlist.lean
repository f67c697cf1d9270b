import AnarchNet.Json.Reader
import AnarchNet.Lib.Effect
import AnarchNet.Lib.Search

/-!
# The host list

The bootstrap server's script `an.php` writes a line for each node, and `Hostlist` of `hostlist.cc`
reads the lines and bootstraps from one node after the other. A text that ends in a newline has an
empty last token, of which the reader takes the second field.
-/

namespace AnarchNet.Hostlist

open FileSystem Json EStateM Search

/-- The byte that ends a line. -/
abbrev newline : UInt8 := 10

/-! ## The writer -/

/-- A node of the server's list. -/
structure Node where
  ip : Bytes
  port : Bytes
  ip_plain : colon ∉ ip ∧ newline ∉ ip
  port_decimal : port ≠ [] ∧ ∀ digit ∈ port, isDigit digit = true

/-- The line of a node without its end. -/
def Node.line (node : Node) : Bytes := node.ip ++ colon :: node.port

/-- What the script writes for the nodes that it has chosen. -/
def echoNodes (nodes : List Node) : Bytes := nodes.flatMap fun node => node.line ++ [newline]

/-! ## The reader -/

/-- The arguments of a call of `bootstrapFromPeer`. -/
structure Peer where
  ip : Bytes
  port : Int
  deriving DecidableEq

/-- The only thing that can go wrong while lines are read: a field is taken that is not there. -/
inductive Fault where
  | pastFields
  deriving DecidableEq

/-- A program that calls `bootstrapFromPeer`; the calls are kept in order. -/
abbrev Bootstrapping := EStateM Fault (List Peer)

/-- What a call of `bootstrapFromPeer` returns, which may depend on the calls before. -/
abbrev Peers := List Peer → Peer → Bool

/-- `atoi`: white space and a sign are skipped, and the digits are read as a `long` that is cut to
32 bits. -/
def atoi (text : Bytes) : Int :=
  let rest := text.dropWhile isSpace
  let negative := rest.head? = some 45
  let unsigned := if negative ∨ rest.head? = some 43 then rest.tail else rest
  let value : Int := digitsValue (unsigned.takeWhile isDigit)
  let long := if negative then max (-value) (-2 ^ 63) else min value (2 ^ 63 - 1)
  (BitVec.ofInt 32 long).toInt

/-- A field of a line, without a check. -/
def fieldAt (pinfo : List Bytes) (index : Nat) : Bootstrapping Bytes :=
  match pinfo[index]? with
  | some text => return text
  | none => throw .pastFields

variable (peers : Peers)

/-- `bootstrapFromPeer`. -/
def bootstrapFromPeer (ip : Bytes) (port : Int) : Bootstrapping Bool := do
  let calls ← get
  set (calls ++ [{ ip := ip, port := port }])
  return peers calls { ip := ip, port := port }

/-- The loop over the lines. -/
def bootstrapFromPeers : List Bytes → Bool → Bootstrapping Bool
  | [], fail => return fail
  | peer :: plist, fail => do
      let pinfo := tokens (· == colon) peer
      let ip ← fieldAt pinfo 0
      let port ← fieldAt pinfo 1
      let succeeded ← bootstrapFromPeer peers ip (atoi port)
      bootstrapFromPeers plist (if succeeded then false else fail)

/-- `bootstrapFromHostlist`, with what `http_request` fetched. -/
def bootstrapFromHostlist : Option Bytes → Bootstrapping Bool
  | none => return false
  | some hlist => bootstrapFromPeers peers (tokens (· == newline) hlist) true

/-! ## What the reader makes of the list -/

/-- The call that is meant for a node. -/
def Node.peer (node : Node) : Peer where
  ip := node.ip
  port := digitsValue node.port

/-- The call that is made for a node. -/
def Node.called (node : Node) : Peer where
  ip := node.ip
  port := atoi node.port

/-- One of these calls, made after others, succeeds. -/
def succeedsFrom (before : List Peer) : List Peer → Bool
  | [] => false
  | call :: later => peers before call || succeedsFrom (before ++ [call]) later

/-- The reader takes no field that is not there, calls `bootstrapFromPeer` once for each node and in
order, and returns true exactly if a call succeeded. -/
def ReadsBack (nodes : List Node) : Prop :=
  ∃ result calls, (bootstrapFromHostlist peers (some (echoNodes nodes))).run [] = .ok result calls ∧
    calls = nodes.map Node.peer ∧ (result = true ↔ succeedsFrom peers [] calls = true)

variable {peers}

/-- Digits are no separators of fields. -/
theorem Node.colon_not_mem_port (node : Node) : colon ∉ node.port := by
  intro hmem
  have hdigit := node.port_decimal.2 colon hmem
  exact absurd hdigit (by decide)

/-- Digits do not end a line. -/
theorem Node.newline_not_mem_line (node : Node) : newline ∉ node.line := by
  have hport : newline ∉ node.port := fun hmem =>
    absurd (node.port_decimal.2 newline hmem) (by decide)
  rw [Node.line, List.mem_append, List.mem_cons]
  rintro (hip | heq | hmem)
  · exact node.ip_plain.2 hip
  · exact absurd heq (by decide)
  · exact hport hmem

/-- The two fields of a line. -/
theorem Node.tokens_line (node : Node) :
    tokens (· == colon) node.line = [node.ip, node.port] := by
  have hport : ∀ byte ∈ node.port, (byte == colon) = false := fun byte hbyte =>
    beq_false_of_ne fun heq => node.colon_not_mem_port (heq ▸ hbyte)
  have hip : ∀ byte ∈ node.ip, (byte == colon) = false := fun byte hbyte =>
    beq_false_of_ne fun heq => node.ip_plain.1 (heq ▸ hbyte)
  have hfirst : node.port.head?.any (· == colon) = false := by
    cases hport' : node.port with
    | nil => rfl
    | cons digit rest => exact hport digit (by simp [hport'])
  rw [Node.line, tokens_append_cons hip (beq_self_eq_true colon) hfirst, tokens_of_none hport]

/-- A line does not begin with a newline. -/
theorem Node.head_line (node : Node) (rest : Bytes) :
    (node.line ++ rest).head?.any (· == newline) = false := by
  have hline := node.newline_not_mem_line
  cases hbytes : node.line with
  | nil => simp [Node.line] at hbytes
  | cons byte line =>
      rw [hbytes, List.mem_cons, not_or] at hline
      simpa using Ne.symm hline.1

/-- The lines of the list are tokens in front of those of what follows. -/
theorem tokens_echoNodes_append (nodes : List Node) {text : Bytes}
    (htext : text.head?.any (· == newline) = false) :
    tokens (· == newline) (echoNodes nodes ++ text) =
      nodes.map Node.line ++ tokens (· == newline) text := by
  induction nodes with
  | nil => rfl
  | cons node nodes ih =>
      have hline : ∀ byte ∈ node.line, (byte == newline) = false := fun byte hbyte =>
        beq_false_of_ne fun heq => node.newline_not_mem_line (heq ▸ hbyte)
      have hfirst : (echoNodes nodes ++ text).head?.any (· == newline) = false := by
        cases nodes with
        | nil => exact htext
        | cons next nodes =>
            rw [echoNodes, List.flatMap_cons, List.append_assoc, List.append_assoc]
            exact next.head_line _
      have hsplit : echoNodes (node :: nodes) ++ text =
          node.line ++ newline :: (echoNodes nodes ++ text) := by
        simp [echoNodes]
      rw [hsplit, tokens_append_cons hline (beq_self_eq_true newline) hfirst, ih, List.map_cons,
        List.cons_append]

/-- A port that an `int` can hold is read as it is. -/
theorem Node.called_eq_peer (node : Node) (h : digitsValue node.port < 2 ^ 31) :
    node.called = node.peer := by
  obtain ⟨hne, hdigits⟩ := node.port_decimal
  have hdigit : ∀ digit : UInt8, isDigit digit = true →
      isSpace digit = false ∧ digit ≠ 45 ∧ digit ≠ 43 := by
    intro digit hdigit
    simp only [isDigit, Bool.and_eq_true, decide_eq_true_eq, UInt8.le_iff_toNat_le] at hdigit
    refine ⟨?_, fun heq => ?_, fun heq => ?_⟩
    · simp only [isSpace, Bool.or_eq_false_iff, Bool.and_eq_false_imp, decide_eq_true_eq,
        decide_eq_false_iff_not, UInt8.le_iff_toNat_le]
      refine ⟨fun heq => ?_, fun _ => ?_⟩
      · rw [heq] at hdigit
        exact absurd hdigit.1 (by decide)
      · have := hdigit.1
        simp only [UInt8.toNat_ofNat] at this ⊢
        omega
    · rw [heq] at hdigit
      exact absurd hdigit.1 (by decide)
    · rw [heq] at hdigit
      exact absurd hdigit.1 (by decide)
  have hwhole : node.port.takeWhile isDigit = node.port := List.takeWhile_eq_self_iff.2 hdigits
  obtain ⟨first, rest, hport⟩ := List.exists_cons_of_ne_nil hne
  obtain ⟨hspace, hminus, hplus⟩ := hdigit first (hdigits first (by simp [hport]))
  have hdrop : node.port.dropWhile isSpace = node.port := by
    rw [hport, List.dropWhile_cons_of_neg (by simp [hspace])]
  have hhead : node.port.head? = some first := by rw [hport, List.head?_cons]
  have hvalue : atoi node.port = digitsValue node.port := by
    simp only [atoi, hdrop, hhead, Option.some.injEq, hminus, hplus, or_self, if_false, hwhole]
    rw [Int.min_eq_left (by omega), BitVec.toInt_ofInt_eq_self (by decide) (by omega) (by omega)]
  rw [Node.called, Node.peer, hvalue]

/-- The lines of nodes are read one by one: the calls are made, and the flag stays as it is until a
call succeeds. -/
theorem run_bootstrapFromPeers (nodes : List Node) (plist : List Bytes) (fail : Bool)
    (calls : List Peer) :
    (bootstrapFromPeers peers (nodes.map Node.line ++ plist) fail).run calls =
      (bootstrapFromPeers peers plist
        (fail && !succeedsFrom peers calls (nodes.map Node.called))).run
          (calls ++ nodes.map Node.called) := by
  induction nodes generalizing fail calls with
  | nil => simp [succeedsFrom]
  | cons node nodes ih =>
      rw [List.map_cons, List.cons_append, bootstrapFromPeers, node.tokens_line]
      change (bootstrapFromPeers peers (nodes.map Node.line ++ plist)
        (if peers calls node.called then false else fail)).run (calls ++ [node.called]) = _
      rw [ih, List.map_cons, succeedsFrom, List.append_assoc, List.singleton_append]
      cases peers calls node.called <;> simp

/-- The reader calls `bootstrapFromPeer` for every node and then takes a field that is not there: the
text behind the last newline is a token without fields. -/
theorem run_bootstrapFromHostlist (nodes : List Node) :
    (bootstrapFromHostlist peers (some (echoNodes nodes))).run [] =
      .error .pastFields (nodes.map Node.called) := by
  have htokens : tokens (· == newline) (echoNodes nodes) = nodes.map Node.line ++ [[]] := by
    have happend := @tokens_echoNodes_append nodes [] rfl
    rwa [List.append_nil] at happend
  rw [bootstrapFromHostlist, htokens, run_bootstrapFromPeers]
  rfl

/-- Without the newline behind the last line the reader returns, and it returns the opposite of what
its callers take it for. -/
theorem run_bootstrapFromHostlist_open (nodes : List Node) (last : Node) :
    (bootstrapFromHostlist peers (some (echoNodes nodes ++ last.line))).run [] =
      .ok (!succeedsFrom peers [] ((nodes ++ [last]).map Node.called))
        ((nodes ++ [last]).map Node.called) := by
  have hline : ∀ byte ∈ last.line, (byte == newline) = false := fun byte hbyte =>
    beq_false_of_ne fun heq => last.newline_not_mem_line (heq ▸ hbyte)
  have htokens : tokens (· == newline) (echoNodes nodes ++ last.line) =
      (nodes ++ [last]).map Node.line ++ [] := by
    have hfirst := last.head_line []
    rw [List.append_nil] at hfirst
    rw [tokens_echoNodes_append nodes hfirst, tokens_of_none hline, List.map_append,
      List.append_nil]
    rfl
  rw [bootstrapFromHostlist, htokens, run_bootstrapFromPeers]
  rfl

/-- Whatever the calls return, no list that the server writes is read back. -/
theorem hostlist_never_read_back (peers : Peers) (nodes : List Node) : ¬ ReadsBack peers nodes := by
  rintro ⟨result, calls, hrun, -⟩
  rw [run_bootstrapFromHostlist] at hrun
  cases hrun

/-- The list of one node, from which the client can bootstrap. -/
theorem hostlist_one_node :
    ¬ ReadsBack (fun _ _ => true) [{
      ip := [49, 46, 50, 46, 51, 46, 52]
      port := [56, 48]
      ip_plain := by decide
      port_decimal := by decide +kernel }] := by
  intro h
  obtain ⟨result, calls, hrun, -⟩ := h
  have hpast : (bootstrapFromHostlist (fun _ _ => true)
      (some [49, 46, 50, 46, 51, 46, 52, 58, 56, 48, 10])).run [] =
        .error .pastFields [{ ip := [49, 46, 50, 46, 51, 46, 52], port := 80 }] := by
    rfl
  exact absurd (hpast.symm.trans hrun) (by simp)

end AnarchNet.Hostlist
