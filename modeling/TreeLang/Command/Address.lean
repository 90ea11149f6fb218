import TreeLang.Text.Pieces

/-!
# Addresses to listen on

An address is a host and a port behind the last colon. A host with colons of its own stands between
square brackets. `Address.problem?` says what keeps the server from listening.
-/

namespace TreeLang.Command.Address

/-- What can be wrong with an address. -/
inductive Problem where
  | form (address why : String)
  | badPort (port : String)
  | unknownPort (port : String)
  | unavailable (address : String)
deriving DecidableEq, Repr

/-- The wording of a problem. -/
def Problem.message : Problem → String
  | .form address why => "listen tcp: address " ++ address ++ ": " ++ why
  | .badPort port => "listen tcp: address " ++ port ++ ": invalid port"
  | .unknownPort port => "listen tcp: lookup tcp/" ++ port ++ ": unknown port"
  | .unavailable address => "listen tcp " ++ address ++ ": bind: cannot assign requested address"

/-- The part in front of the last `c` and the part behind it. -/
def cutAtLast? (c : Char) (cs : List Char) : Option (List Char × List Char) :=
  if cs.contains c then
    let back := (cs.reverse.takeWhile (· ≠ c)).reverse
    some (cs.take (cs.length - back.length - 1), back)
  else none

/-- The host and the port of an address. -/
def split (address : String) : Except Problem (String × String) :=
  let cs := address.toList
  let fail (why : String) : Except Problem (String × String) := .error (.form address why)
  match cutAtLast? ':' cs with
  | none => fail "missing port in address"
  | some (front, port) =>
    match cs with
    | '[' :: inner =>
      if !inner.contains ']' then fail "missing ']' in address"
      else
        let host := inner.takeWhile (· ≠ ']')
        let rest := inner.drop (host.length + 1)
        match rest with
        | [] => fail "missing port in address"
        | c :: after =>
          if c ≠ ':' then fail "missing port in address"
          else if after.contains ':' then fail "too many colons in address"
          else if inner.contains '[' then fail "unexpected '[' in address"
          else if after.contains ']' then fail "unexpected ']' in address"
          else .ok (String.ofList host, String.ofList port)
    | _ =>
      if front.contains ':' then fail "too many colons in address"
      else if cs.contains '[' then fail "unexpected '[' in address"
      else if cs.contains ']' then fail "unexpected ']' in address"
      else .ok (String.ofList front, String.ofList port)

/-- The services that are known by name. -/
def services : List String :=
  ["domain", "ftp", "ftps", "gopher", "http", "https", "imap2", "imap3", "imaps", "pop3", "pop3s",
   "smtp", "submissions", "ssh", "telnet"]

/-- The number of a port, if it is written as one: a sign may stand in front, and nothing at all
means zero. -/
def portNumber? (port : String) : Option Int :=
  let (negative, digits) := match port.toList with
    | '-' :: r => (true, r)
    | '+' :: r => (false, r)
    | r => (false, r)
  if digits.all Char.isDigit then
    let n : Nat := digits.foldl (fun acc c => acc * 10 + (c.toNat - 48)) 0
    some (if negative then -(n : Int) else n)
  else none

/-- The four numbers of an address of version four. -/
def octets? (host : String) : Option (List Nat) :=
  let parts := Text.split host "."
  let numbers := parts.filterMap fun p =>
    let fits := p.length ≤ 3 && !(p.length > 1 && p.startsWith "0") && p.all Char.isDigit
    if fits then p.toNat? else none
  if parts.length = 4 && numbers.length = 4 && numbers.all (· < 256) then some numbers else none

/-- The host is one of this machine's own addresses, as far as its form shows. -/
def isLocal (host : String) : Bool :=
  match octets? host with
  | some [0, 0, 0, 0] => true
  | some (127 :: _) => true
  | some _ => false
  | none => true

/-- What keeps the server from listening on an address. -/
def problem? (address : String) : Option Problem :=
  match split address with
  | .error p => some p
  | .ok (host, port) =>
    match portNumber? port with
    | some n =>
      if n < 0 || n > 65535 then some (.badPort port)
      else if isLocal host then none
      else some (.unavailable (host ++ ":" ++ toString n))
    | none =>
      if services.contains (port.map Char.toLower) then none else some (.unknownPort port)

end TreeLang.Command.Address
