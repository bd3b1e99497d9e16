import RwkvLightning.Launcher.BackendRegistry
import RwkvLightning.Launcher.JsonTextExact

/-!
# What a registry file holds

**Results.**
* `unmarshal_marshal`: a list of well-formed entries is read back from its file.
* `wellFormed_of_unmarshal`: the entries that are read are well formed.
* `validateBaseURL_ne_nil`, `wellFormed_of_validateBaseURL`: what an accepted address is.
-/

namespace RwkvLightning
namespace Launcher
namespace Backends

open GoStrings (Bytes trimSpace trimSuffix)
open JsonString (ascii quote)
open Utf8 (IsChar WellFormed)
open Separated (ReadsAs Starts)

/-- An entry whose texts are well formed. -/
structure WellFormedEntry (e : BackendEntry) : Prop where
  id : WellFormed e.id
  name : WellFormed e.name
  baseURL : WellFormed e.baseURL
  token : WellFormed e.token

theorem wellFormed_zeroEntry : WellFormedEntry zeroEntry :=
  ⟨Utf8.wellFormed_nil, Utf8.wellFormed_nil, Utf8.wellFormed_nil, Utf8.wellFormed_nil⟩

section RoundTrip

/-- The members of the object of an entry. -/
def entryMembers (e : BackendEntry) : List (Bytes × Json) :=
  [(ascii "id", .scalar (.str e.id)), (ascii "name", .scalar (.str e.name)),
    (ascii "base_url", .scalar (.str e.baseURL))] ++
    if e.token = [] then [] else [(ascii "token", .scalar (.str e.token))]

theorem wellFormed_field :
    ∀ field ∈ ["id", "name", "base_url", "token", "backends"], WellFormed (ascii field) := by
  have hascii : ∀ field ∈ ["id", "name", "base_url", "token", "backends"],
      ∀ b ∈ ascii field, b.toNat ≤ 0x7F := by decide +kernel
  exact fun field hfield => Utf8.wellFormed_ascii (hascii field hfield)

theorem starts_marshalEntry (e : BackendEntry) : Starts isSpace (marshalEntry e) :=
  starts_indentedObject 2 _

theorem head_marshalEntry (e : BackendEntry) : (marshalEntry e).head? = some 0x7B := by
  rw [marshalEntry, indentedObject, indented]
  split <;> rfl

/-- An entry is read back. -/
theorem reads_marshalEntry (depth : Nat) {e : BackendEntry} (h : WellFormedEntry e) :
    ReadsAs (readValue (depth + 1)) (marshalEntry e) (.object (entryMembers e)) := by
  have hfield : ∀ field ∈ ["id", "name", "base_url", "token", "backends"], ∀ {text : Bytes},
      WellFormed text → ascii field = ascii field ∧ WellFormed (ascii field) ∧
        Starts isSpace (quoted text) ∧
          ReadsAs (readValue depth) (quoted text) (.scalar (.str text)) :=
    fun field hfield text htext =>
      ⟨rfl, wellFormed_field field hfield, starts_quoted text, reads_quoted depth htext⟩
  have hid := hfield "id" (by decide) h.id
  have hname := hfield "name" (by decide) h.name
  have hbaseURL := hfield "base_url" (by decide) h.baseURL
  have htoken := hfield "token" (by decide) h.token
  refine reads_indentedObject (.cons hid (.cons hname (.cons hbaseURL ?_))) 2
  split
  · exact .nil
  · exact .cons htoken .nil

/-- The value of a registry file. -/
def registryMembers (entries : List BackendEntry) : List (Bytes × Json) :=
  [(ascii "backends", .array (entries.map fun e => .object (entryMembers e)))]

theorem parse_marshal {entries : List BackendEntry} (h : ∀ e ∈ entries, WellFormedEntry e) :
    parse (marshal entries) = some (.object (registryMembers entries)) := by
  have hopens : Opens 0x5D (entries.map marshalEntry) := by
    intro item hitem
    obtain ⟨e, -, rfl⟩ := List.mem_map.mp hitem
    exact ⟨starts_marshalEntry e, by rw [head_marshalEntry]; decide⟩
  have hreads : List.Forall₂ (ReadsAs (readValue 9998)) (entries.map marshalEntry)
      (entries.map fun e => Json.object (entryMembers e)) := by
    rw [List.forall₂_map_left_iff, List.forall₂_map_right_iff, List.forall₂_same]
    exact fun e he => reads_marshalEntry 9997 (h e he)
  have harray := reads_indentedArray hopens hreads 1
  have hstarts : Starts isSpace (indentedArray 1 (entries.map marshalEntry)) :=
    starts_indentedArray 1 _
  have hname : WellFormed (ascii "backends") := wellFormed_field _ (by decide)
  refine parse_of_reads (starts_indentedObject 0 _) ?_
  exact reads_indentedObject (.cons ⟨rfl, hname, hstarts, harray⟩ .nil) 0

theorem decodeField_id (e : BackendEntry) (text : Bytes) :
    decodeField e (ascii "id", .scalar (.str text)) = some { e with id := text } := by
  rw [decodeField]
  dsimp only
  rw [if_pos (by decide +kernel)]
  rfl

theorem decodeField_name (e : BackendEntry) (text : Bytes) :
    decodeField e (ascii "name", .scalar (.str text)) = some { e with name := text } := by
  rw [decodeField]
  dsimp only
  rw [if_neg (by decide +kernel), if_pos (by decide +kernel)]
  rfl

theorem decodeField_baseURL (e : BackendEntry) (text : Bytes) :
    decodeField e (ascii "base_url", .scalar (.str text)) = some { e with baseURL := text } := by
  rw [decodeField]
  dsimp only
  rw [if_neg (by decide +kernel), if_neg (by decide +kernel),
    if_pos (by decide +kernel)]
  rfl

theorem decodeField_token (e : BackendEntry) (text : Bytes) :
    decodeField e (ascii "token", .scalar (.str text)) = some { e with token := text } := by
  rw [decodeField]
  dsimp only
  rw [if_neg (by decide +kernel), if_neg (by decide +kernel),
    if_neg (by decide +kernel), if_pos (by decide +kernel)]
  rfl

/-- The members of an entry give the entry. -/
theorem decodeEntry_entryMembers (e : BackendEntry) :
    decodeEntry zeroEntry (.object (entryMembers e)) = some e := by
  obtain ⟨id, name, baseURL, token⟩ := e
  rw [decodeEntry, entryMembers, List.foldlM_append]
  simp only [List.foldlM_cons, List.foldlM_nil, decodeField_id, decodeField_name,
    decodeField_baseURL, Option.bind_eq_bind, Option.bind_some, Option.pure_def]
  split
  · next htoken =>
      rw [htoken]
      rfl
  · rw [List.foldlM_cons, decodeField_token]
    rfl

theorem decodeItems_entries (entries : List BackendEntry) :
    decodeItems [] (entries.map fun e => .object (entryMembers e)) = some entries := by
  induction entries with
  | nil => rfl
  | cons e entries ih =>
      rw [List.map_cons, decodeItems, List.headD_nil, decodeEntry_entryMembers, Option.bind_some,
        List.tail_nil, ih]
      rfl

/-- The list of a file gives the memory of its slice, and its length. -/
theorem decodeMember_entries (entries : List BackendEntry) :
    decodeMember ([], 0) (ascii "backends", .array (entries.map fun e => .object (entryMembers e))) =
      some (entries, entries.length) := by
  rw [decodeMember]
  dsimp only
  rw [if_pos (by decide +kernel)]
  cases entries with
  | nil => rfl
  | cons e entries =>
      have hitems := decodeItems_entries (e :: entries)
      rw [List.map_cons] at hitems ⊢
      rw [decodeBackends, hitems, Option.map_some, List.length_cons, List.length_cons,
        List.length_map]
      exact List.cons_ne_nil _ _

/-- A list of well-formed entries is read back from its file. -/
theorem unmarshal_marshal {entries : List BackendEntry} (h : ∀ e ∈ entries, WellFormedEntry e) :
    unmarshal (marshal entries) = some entries := by
  rw [unmarshal, parse_marshal h, registryMembers]
  dsimp only
  rw [List.foldlM_cons, decodeMember_entries]
  exact congrArg some List.take_length

end RoundTrip

section Reading

theorem wellFormed_of_decodeString {old text : Bytes} {found : Json} (hold : WellFormed old)
    (hfound : Decoded found) (h : decodeString old found = some text) : WellFormed text := by
  rw [decodeString.eq_def] at h
  split at h
  · cases h
    cases hfound with
    | scalar htoken => exact htoken _ rfl
  · cases h
    exact hold
  · cases h

theorem wellFormed_of_decodeField {e next : BackendEntry} {member : Bytes × Json}
    (he : WellFormedEntry e) (hmember : Decoded member.2) (h : decodeField e member = some next) :
    WellFormedEntry next := by
  rw [decodeField] at h
  split at h
  · obtain ⟨text, htext, rfl⟩ := Option.map_eq_some_iff.mp h
    exact { he with id := wellFormed_of_decodeString he.id hmember htext }
  split at h
  · obtain ⟨text, htext, rfl⟩ := Option.map_eq_some_iff.mp h
    exact { he with name := wellFormed_of_decodeString he.name hmember htext }
  split at h
  · obtain ⟨text, htext, rfl⟩ := Option.map_eq_some_iff.mp h
    exact { he with baseURL := wellFormed_of_decodeString he.baseURL hmember htext }
  split at h
  · obtain ⟨text, htext, rfl⟩ := Option.map_eq_some_iff.mp h
    exact { he with token := wellFormed_of_decodeString he.token hmember htext }
  · cases h
    exact he

/-- What every step of a fold keeps, the fold keeps. -/
theorem foldlM_keeps {σ α : Type} {P : σ → Prop} {f : σ → α → Option σ} {items : List α}
    (hstep : ∀ s t, ∀ a ∈ items, P s → f s a = some t → P t) {s t : σ} (hs : P s)
    (h : items.foldlM f s = some t) : P t := by
  induction items generalizing s with
  | nil =>
      cases h
      exact hs
  | cons a items ih =>
      obtain ⟨mid, hmid, hrest⟩ := Option.bind_eq_some_iff.mp h
      have hkeep := hstep s mid a List.mem_cons_self hs hmid
      exact ih (fun s t a ha => hstep s t a (List.mem_cons_of_mem _ ha)) hkeep hrest

theorem wellFormed_of_decodeEntry {e next : BackendEntry} {found : Json} (he : WellFormedEntry e)
    (hfound : Decoded found) (h : decodeEntry e found = some next) : WellFormedEntry next := by
  rw [decodeEntry.eq_def] at h
  split at h
  · cases h
    exact he
  · next members =>
      cases hfound with
      | object hmembers =>
          refine foldlM_keeps (fun s t member hmember hs ht => ?_) he h
          exact wellFormed_of_decodeField hs (hmembers member hmember) ht
  · cases h

theorem wellFormed_of_decodeItems {memory found : List BackendEntry} {items : List Json}
    (hmemory : ∀ e ∈ memory, WellFormedEntry e) (hitems : ∀ item ∈ items, Decoded item)
    (h : decodeItems memory items = some found) : ∀ e ∈ found, WellFormedEntry e := by
  induction items generalizing memory found with
  | nil =>
      cases h
      exact hmemory
  | cons item items ih =>
      rw [List.forall_mem_cons] at hitems
      obtain ⟨e, he, hrest⟩ := Option.bind_eq_some_iff.mp h
      obtain ⟨rest, hmore, rfl⟩ := Option.map_eq_some_iff.mp hrest
      have hold : WellFormedEntry (memory.headD zeroEntry) := by
        cases memory with
        | nil => exact wellFormed_zeroEntry
        | cons first memory => exact hmemory first List.mem_cons_self
      have htail : ∀ e ∈ memory.tail, WellFormedEntry e :=
        fun e he => hmemory e (List.mem_of_mem_tail he)
      exact List.forall_mem_cons.mpr ⟨wellFormed_of_decodeEntry hold hitems.1 he, ih htail hitems.2 hmore⟩

theorem wellFormed_of_decodeMember {slice next : List BackendEntry × ℕ} {member : Bytes × Json}
    (hslice : ∀ e ∈ slice.1, WellFormedEntry e) (hmember : Decoded member.2)
    (h : decodeMember slice member = some next) : ∀ e ∈ next.1, WellFormedEntry e := by
  rw [decodeMember] at h
  split at h
  · rw [decodeBackends.eq_def] at h
    split at h
    · cases h
      exact List.forall_mem_nil _
    · cases h
      exact List.forall_mem_nil _
    · next items hnonempty hitems =>
        obtain ⟨memory, hmemory, rfl⟩ := Option.map_eq_some_iff.mp h
        rw [hitems] at hmember
        cases hmember with
        | array hdecoded => exact wellFormed_of_decodeItems hslice hdecoded hmemory
    · cases h
  · cases h
    exact hslice

/-- The entries that are read are well formed. -/
theorem wellFormed_of_unmarshal {data : Bytes} {found : List BackendEntry}
    (h : unmarshal data = some found) : ∀ e ∈ found, WellFormedEntry e := by
  rw [unmarshal] at h
  split at h
  · cases h
    exact List.forall_mem_nil _
  · next members hparse =>
      obtain ⟨slice, hslice, rfl⟩ := Option.map_eq_some_iff.mp h
      cases decoded_parse hparse with
      | object hmembers =>
          have hwf : ∀ e ∈ slice.1, WellFormedEntry e := by
            refine foldlM_keeps (P := fun slice => ∀ e ∈ slice.1, WellFormedEntry e)
              (fun s t member hmember hs ht => ?_) (List.forall_mem_nil _) hslice
            exact wellFormed_of_decodeMember hs (hmembers member hmember) ht
          exact fun e he => hwf e (List.mem_of_mem_take he)
  · cases h

end Reading

section Addresses

theorem parse_empty : GoUrl.parse [] = some { scheme := [], host := [], path := [] } := rfl

theorem parse_slash :
    GoUrl.parse (ascii "/") = some { scheme := [], host := [], path := ascii "/" } := by
  decide +kernel

/-- An address that is accepted is a trimmed text with a scheme. -/
theorem validateBaseURL_cases {raw baseURL : Bytes} (h : validateBaseURL raw = .ok baseURL) :
    baseURL = trimSuffix (trimSpace raw) (ascii "/") ∧
      ∃ u, GoUrl.parse (trimSpace raw) = some u ∧ u.scheme ≠ [] := by
  rw [validateBaseURL] at h
  split at h
  · cases h
  · next u hparse =>
      split at h
      · cases h
      · next hscheme =>
          split at h
          · cases h
          · cases h
            refine ⟨rfl, u, hparse, ?_⟩
            rintro hnil
            refine hscheme (Or.inl ?_)
            rw [hnil]
            decide +kernel

/-- An address that is accepted is not empty. -/
theorem validateBaseURL_ne_nil {raw baseURL : Bytes} (h : validateBaseURL raw = .ok baseURL) :
    baseURL ≠ [] := by
  obtain ⟨rfl, u, hparse, hscheme⟩ := validateBaseURL_cases h
  intro hnil
  rcases GoStrings.trimSuffix_cases (trimSpace raw) (ascii "/") with hsame | hsplit
  · rw [hnil] at hsame
    rw [← hsame, parse_empty] at hparse
    cases hparse
    exact hscheme rfl
  · rw [hnil, List.nil_append] at hsplit
    rw [hsplit, parse_slash] at hparse
    cases hparse
    exact hscheme rfl

theorem isChar_slash : IsChar (ascii "/") := Utf8.isChar_one.mpr (by decide)

/-- An address that is accepted is well formed. -/
theorem wellFormed_of_validateBaseURL {raw baseURL : Bytes} (hraw : WellFormed raw)
    (h : validateBaseURL raw = .ok baseURL) : WellFormed baseURL := by
  obtain ⟨rfl, -⟩ := validateBaseURL_cases h
  exact GoStrings.wellFormed_trimSuffix (GoStrings.wellFormed_trimSpace hraw) isChar_slash

end Addresses

end Backends
end Launcher
end RwkvLightning
