import GraphClient.Proofs.Command.AllOrNothing
import GraphClient.Proofs.Command.Options

/-!
# Which authorization is sent

The names of headers are told apart by the case of their letters here, but not by a server
(`NamesAuthorization`). The headers that options give replace those of every request
(`get?_request`), none of which authorizes, and the token is added where no option names the
header in the spelling of the token. So a header in this spelling replaces the token, and a
header in another one is sent beside it (`authorization_replaced_iff`).
-/

namespace GraphClient

namespace Record

variable {α : Type} {name : String}

/-- Entries with distinct names replace those of a record. -/
theorem get?_foldl_insert {entries : List (String × α)} (r : Record α)
    (h : (entries.map Prod.fst).Nodup) :
    (entries.foldl (fun r e => r.insert e.1 e.2) r).get? name =
      (entries.lookup name).or (r.get? name) := by
  induction entries generalizing r with
  | nil => rfl
  | cons e entries ih =>
    obtain ⟨key, value⟩ := e
    rw [List.map_cons, List.nodup_cons] at h
    rw [List.foldl_cons, ih _ h.2, get?_insert, List.lookup_cons]
    by_cases hk : name = key
    · subst hk
      have hnone : entries.lookup name = none := by
        rw [List.lookup_eq_none_iff]
        exact fun p hp => bne_iff_ne.mpr fun e => h.1 (List.mem_map.mpr ⟨p, hp, e.symm⟩)
      rw [hnone, Option.none_or, if_pos rfl, beq_self_eq_true]
      rfl
    · rw [if_neg hk, beq_eq_false_iff_ne.mpr hk]

end Record

namespace Fetch

theorem get?_fixedHeaders (name : String) : fixedHeaders.get? name =
    if name = "Accept" then some "application/json"
    else if name = "Content-Type" then some "application/json" else none := by
  unfold fixedHeaders Record.ofPairs
  rw [List.foldl_cons, List.foldl_cons, List.foldl_nil, Record.get?_insert, Record.get?_insert]
  rfl

/-- A request has the headers that are given, and else those of every request. -/
theorem get?_request (endpoint name : String) (headers : Record String) :
    (request endpoint headers).headers.get? name =
      (headers.get? name).or (fixedHeaders.get? name) :=
  Record.get?_foldl_insert fixedHeaders headers.keys_nodup

end Fetch

/-- Whether a server takes a name for that of the header of authorization. -/
def NamesAuthorization (name : String) : Prop :=
  name.toList.map Char.toLower = "authorization".toList

instance (name : String) : Decidable (NamesAuthorization name) :=
  inferInstanceAs (Decidable (_ = _))

namespace FetchOption

/-- The name of the header that an option gives. -/
def name? : FetchOption → Option String
  | header before _ _ => some (Text.trim before)
  | _ => none

/-- Some option gives a header whose name has a property. -/
def Gives (p : String → Prop) (given : List FetchOption) : Prop :=
  ∃ name ∈ given.filterMap name?, p name

instance (p : String → Prop) [DecidablePred p] (given : List FetchOption) :
    Decidable (Gives p given) := inferInstanceAs (Decidable (∃ name ∈ _, p name))

/-- The authorization of a request is what the options give under any spelling of it, or else the
token alone. -/
structure Replaces (token : Option String) (given : List FetchOption) (q : Request) : Prop where
  explicit : Gives NamesAuthorization given → ∀ name, NamesAuthorization name →
    q.headers.get? name = lastSome? (header? name) given
  fallback : ¬ Gives NamesAuthorization given → ∀ text, token = some text → text ≠ "" →
    ∀ name, NamesAuthorization name →
      q.headers.get? name = if name = "Authorization" then some text else none

variable {token : Option String} {given : List FetchOption} {q : Request} {name : String}

theorem lastSome?_header_eq_none_iff (hn : name ≠ reservedKey) :
    lastSome? (header? name) given = none ↔ ¬ Gives (· = name) given := by
  have hnone : ∀ g : FetchOption, header? name g = none ↔ g.name? ≠ some name := by
    intro g
    cases g <;> simp [header?, name?, hn]
  simp only [lastSome?, List.findSome?_eq_none_iff, List.mem_reverse, hnone, Gives,
    List.mem_filterMap, exists_eq_right, not_exists, not_and, ne_eq]

theorem Gives.mono {p p' : String → Prop} (h : Gives p given) (hp : ∀ n, p n → p' n) :
    Gives p' given := by
  obtain ⟨n, hn, hpn⟩ := h
  exact ⟨n, hn, hp n hpn⟩

/-- A request whose headers of authorization are those of the options and the token in its own
spelling replaces the token unless options give the header in other spellings alone. -/
theorem replaces_iff (hq : ∀ name, NamesAuthorization name → q.headers.get? name =
      (lastSome? (header? name) given).or
        (if name = "Authorization" then token.filter (· ≠ "") else none)) :
    Replaces token given q ↔ token.filter (· ≠ "") = none ∨
      (Gives NamesAuthorization given → Gives (· = "Authorization") given) := by
  have hname : NamesAuthorization "Authorization" := by decide
  have hkey : ∀ name, NamesAuthorization name → name ≠ reservedKey := by
    rintro _ hn rfl
    exact absurd hn (by decide)
  constructor
  · intro h
    by_cases ht : token.filter (· ≠ "") = none
    · exact .inl ht
    · refine .inr fun hgives => Classical.byContradiction fun hexact => ?_
      have he := h.explicit hgives _ hname
      rw [hq _ hname, (lastSome?_header_eq_none_iff (hkey _ hname)).mpr hexact, if_pos rfl,
        Option.none_or] at he
      exact ht he
  · intro h
    refine ⟨fun hgives name hn => ?_, fun hgives text ht hne name hn => ?_⟩
    · rw [hq name hn]
      by_cases ha : name = "Authorization"
      · subst ha
        rcases h with ht | h
        · rw [if_pos rfl, ht, Option.or_none]
        · obtain ⟨value, hv⟩ := Option.ne_none_iff_exists'.mp fun hnone =>
            (lastSome?_header_eq_none_iff (hkey _ hname)).mp hnone (h hgives)
          rw [hv, Option.some_or]
      · rw [if_neg ha, Option.or_none]
    · have hnone : lastSome? (header? name) given = none :=
        (lastSome?_header_eq_none_iff (hkey name hn)).mpr fun hg =>
          hgives (hg.mono fun n e => e ▸ hn)
      have hfilter : (some text).filter (· ≠ "") = some text := by simp [Option.filter, hne]
      rw [hq name hn, hnone, ht, hfilter, Option.none_or]

end FetchOption

open FetchOption in
/-- For accepted arguments of `fetch` one request is made. It authorizes with the headers of the
options, and with the token if none of them is named as the token is. So these headers replace the
token if and only if there is no token, or one of them is so named, or none names the header of
authorization in any letters. -/
theorem authorization_replaced_iff {args : List String} {token : Option String} {o : FetchOptions}
    (h : FetchOptions.ofArguments token args = .ok o) (transport : Transport) (files : FileTree) :
    ∃ q, (run ("fetch" :: args) token transport files).requests = [q] ∧
      (∃ given : List FetchOption, args = given.flatMap spelling) ∧
      ∀ given : List FetchOption, args = given.flatMap spelling →
        (∀ name, NamesAuthorization name → q.headers.get? name =
          (lastSome? (header? name) given).or
            (if name = "Authorization" then token.filter (· ≠ "") else none)) ∧
        (Replaces token given q ↔ token.filter (· ≠ "") = none ∨
          (Gives NamesAuthorization given → Gives (· = "Authorization") given)) := by
  have hfollows := follows_fetch token args
  obtain ⟨given, hargs, -⟩ := hfollows.accepts.mp ⟨o, h⟩
  refine ⟨Fetch.request o.endpoint o.headers, ?_, ⟨given, hargs⟩, fun given hgiven => ?_⟩
  · rw [run_fetch, h]
    exact o.run_requests transport files
  · have hmean := hfollows.means o given h hgiven
    have hq : ∀ name, NamesAuthorization name →
        (Fetch.request o.endpoint o.headers).headers.get? name =
          (lastSome? (header? name) given).or
            (if name = "Authorization" then token.filter (· ≠ "") else none) := by
      intro name hn
      have hfixed : Fetch.fixedHeaders.get? name = none := by
        rw [Fetch.get?_fixedHeaders, if_neg, if_neg] <;> rintro rfl <;> exact absurd hn (by decide)
      rw [Fetch.get?_request, hfixed, Option.or_none, hmean.headers]
    exact ⟨hq, replaces_iff hq⟩

/-- Options that give the header of authorization in small letters. -/
def smallAuthorization : List FetchOption :=
  [.endpoint "https://example.com/graphql", .header "authorization" " Bearer mine" (by decide)]

/-- The token is sent beside the header. -/
theorem authorization_replaced_iff_small :
    let args := smallAuthorization.flatMap FetchOption.spelling
    ∃ o, FetchOptions.ofArguments (some "secret") args = .ok o ∧
      ∃ q, (run ("fetch" :: args) (some "secret") (fun _ => .error .null) ⟨[], []⟩).requests = [q] ∧
        q.headers.get? "authorization" = some "Bearer mine" ∧
        q.headers.get? "Authorization" = some "secret" ∧
        ¬ FetchOption.Replaces (some "secret") smallAuthorization q := by
  intro args
  have haccepts : ∃ o, FetchOptions.ofArguments (some "secret") args = .ok o :=
    (follows_fetch (some "secret") args).accepts.mpr ⟨smallAuthorization, rfl, by decide +kernel⟩
  obtain ⟨o, ho⟩ := haccepts
  obtain ⟨q, hq, -, hall⟩ :=
    authorization_replaced_iff ho (fun _ => .error .null) ⟨[], []⟩
  obtain ⟨hget, hiff⟩ := hall smallAuthorization rfl
  refine ⟨o, ho, q, hq, ?_, ?_, fun h => ?_⟩
  · rw [hget _ (by decide)]
    decide +kernel
  · rw [hget _ (by decide)]
    decide +kernel
  · exact absurd (hiff.mp h) (by decide +kernel)

end GraphClient
