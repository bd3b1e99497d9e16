import RwkvLightning.Server.StateCache
import Mathlib.Data.List.Sort

/-!
# Deleting and listing sessions

The handlers of `session_routes.cpp` over the state cache: the key under which a
generation stores the state of a session, `/state/status` and `/state/delete`.

**Keys.**  A session id is a trimmed client string.  A state is stored under the
id, a colon and the effective model key, which is the hexadecimal SHA-256 digest
of a JSON array.  The JSON writer and the hash are parameters.

The requests are given as the handlers read them: the decoded field of the body,
the header, and whether the password was accepted.
-/

namespace RwkvLightning
namespace StateCache

/-- The bytes of a string literal. -/
def bytesOf (text : String) : Key :=
  text.toList.map (fun c => UInt8.ofNat c.toNat)

section SessionIds

/-- The characters `" \t\r\n"`. -/
def isSpace (byte : UInt8) : Bool :=
  byte = 32 || byte = 9 || byte = 13 || byte = 10

/-- `trim`. -/
def trim (input : Key) : Key :=
  ((input.dropWhile isSpace).reverse.dropWhile isSpace).reverse

/-- `resolve_identifier`, with the value and the channel found so far. -/
def resolveIdentifier (field : String) (value : Key) (used : String) :
    List (String × Key) → Except String Key
  | [] => .ok value
  | (channel, raw) :: channels =>
      let current := trim raw
      if current = [] then resolveIdentifier field value used channels
      else if used ≠ "" then
        if current = value then resolveIdentifier field value used channels
        else
          .error (field ++ " has conflicting values in " ++ used ++ " and " ++
            channel ++ "; use only one of them")
      else resolveIdentifier field current channel channels

/-- A request of the session routes. -/
structure SessionRequest where
  validJson : Bool
  authorized : Bool
  /-- `session_id_from_body`; the JSON library throws for arrays and objects -/
  sessionIdFromBody : Except String Key
  sessionIdHeader : Key

/-- `session_id_from_request`. -/
def sessionIdFromRequest (request : SessionRequest) : Except String Key :=
  match request.sessionIdFromBody with
  | .error message => .error message
  | .ok body =>
      resolveIdentifier "session_id" [] ""
        [("request body", body),
          ("X-RWKV-Session-Id header", request.sessionIdHeader)]

end SessionIds

section Keys

/-- Printing a JSON array of three strings and a Boolean, and SHA-256. -/
structure Fingerprinting where
  writeArray : Key → Key → Key → Bool → List UInt8
  sha256 : List UInt8 → List UInt8
  length_sha256 : ∀ bytes, (sha256 bytes).length = 32

def hexDigit (n : Nat) : UInt8 :=
  UInt8.ofNat (if n < 10 then 48 + n else 87 + n)

/-- `Hash::finish`: two lower-case digits a byte. -/
def finish (digest : List UInt8) : Key :=
  digest.flatMap (fun byte => [hexDigit (byte.toNat / 16), hexDigit (byte.toNat % 16)])

/-- The arguments of `effective_model_key`. -/
structure ModelKey where
  runtime : Key
  adapter : Option Key
  initial : Key
  fp32 : Bool

/-- `effective_model_key`. -/
def effectiveModelKey (p : Fingerprinting) (k : ModelKey) : Key :=
  finish (p.sha256 (p.writeArray k.runtime (k.adapter.getD []) k.initial k.fp32))

/-- The key of a session's state: `session_id + ":" + effective_model_key(…)`. -/
def sessionStateKey (p : Fingerprinting) (sessionId : Key) (k : ModelKey) : Key :=
  sessionId ++ bytesOf ":" ++ effectiveModelKey p k

/-- `std::isxdigit`. -/
def isxdigit (byte : UInt8) : Bool :=
  (48 ≤ byte && byte ≤ 57) || (65 ≤ byte && byte ≤ 70) || (97 ≤ byte && byte ≤ 102)

/-- The condition on a listed key in the loop of `/state/delete`. -/
def inNamespace (sessionId key : Key) : Bool :=
  key.length = (sessionId ++ bytesOf ":").length + 64 &&
    (sessionId ++ bytesOf ":").isPrefixOf key &&
    (key.drop (sessionId ++ bytesOf ":").length).all isxdigit

end Keys

section Manager

/-- `StateSummary`. -/
structure StateSummary where
  l1Cache : List Key
  l2Cache : List Key
  database : List Key

/-- The keys of a level. -/
def keysOf (level : LinkedMap Key GenerationState) : List Key :=
  level.map.entries.map Sigma.fst

/-- `ORDER BY last_updated DESC`. -/
def moreRecent (a b : (_ : Key) × Row) : Prop :=
  b.2.lastUpdated ≤ a.2.lastUpdated

instance : DecidableRel moreRecent :=
  fun a b => inferInstanceAs (Decidable (b.2.lastUpdated ≤ a.2.lastUpdated))

/-- `list_all_states`. -/
def listAllStates (m : Manager) : StateSummary :=
  { l1Cache := keysOf m.store.l1
    l2Cache := keysOf m.store.l2
    database := (m.store.table.entries.insertionSort moreRecent).map Sigma.fst }

/-- The result of `delete_state_from_any_level`. -/
def foundInAnyLevel (m : Manager) (key : Key) : Bool :=
  (m.store.l1.get? key).isSome || (m.store.l2.get? key).isSome ||
    (m.store.table.lookup (cString key)).isSome

end Manager

section Handlers

/-- The loop of `/state/delete` over the listed keys. -/
def deleteListed (sessionId : Key) : List Key → Manager × Bool → Manager × Bool
  | [], r => r
  | key :: keys, (m, ok) =>
      if inNamespace sessionId key then
        deleteListed sessionId keys (m.deleteState key, foundInAnyLevel m key || ok)
      else deleteListed sessionId keys (m, ok)

/-- The keys of all levels, in the order of the loop. -/
def StateSummary.all (namespaces : StateSummary) : List Key :=
  namespaces.l1Cache ++ namespaces.l2Cache ++ namespaces.database

/-- The deletion of a session: its id as a key, then its namespace. -/
def deleteSession (m : Manager) (sessionId : Key) : Manager × Bool :=
  let ok := foundInAnyLevel m sessionId
  let m := m.deleteState sessionId
  deleteListed sessionId (listAllStates m).all (m, ok)

/-- A reply of `/state/delete`. -/
structure DeleteReply where
  code : Nat
  status : Option String
  message : Key

/-- `/state/delete`. -/
def stateDelete (m : Manager) (request : SessionRequest) : Manager × DeleteReply :=
  if !request.validJson then
    (m, { code := 400, status := none, message := bytesOf "Invalid JSON" })
  else if !request.authorized then
    (m, { code := 401, status := none,
          message := bytesOf "Unauthorized: invalid or missing password" })
  else
    match sessionIdFromRequest request with
    | .error message => (m, { code := 400, status := none, message := bytesOf message })
    | .ok sessionId =>
        if sessionId = [] then
          (m, { code := 400, status := none, message := bytesOf "Missing session_id" })
        else
          let r := deleteSession m sessionId
          if r.2 then
            (r.1, { code := 200, status := some "success",
                    message := bytesOf "Session " ++ sessionId ++
                      bytesOf " deleted successfully" })
          else
            (r.1, { code := 404, status := some "not_found",
                    message := bytesOf "Session " ++ sessionId ++ bytesOf " not found" })

end Handlers

end StateCache
end RwkvLightning
