import BitcoinRpcOperator.ProxyHandler
import BitcoinRpcOperator.UrlText

/-!
# Paths of forwarded requests

`Forward` appends the decoded path of a request to the address of the node and has the
result read as a URL again, so a path is decoded twice. It survives when it holds nothing
that means something in a URL.
-/

namespace BitcoinRpcOperator.PathForwarding
open Text JsonText UrlText ProxyHandler

/-- The address of the node: a scheme and an authority. -/
structure BaseUrl where
  scheme : Bytes
  authority : Bytes
  schemeBytes : ∀ b ∈ scheme, isSchemeByte b
  authorityBytes : ∀ b ∈ authority,
    b ≠ byte '/' ∧ b ≠ byte '?' ∧ b ≠ byte '#' ∧ isControl b = false

def BaseUrl.text (base : BaseUrl) : Bytes := base.scheme ++ utf8 "://".toList ++ base.authority

/-- A path as `ServeMux` leaves it: rooted, and none of its segments is a dot, two dots, or
empty unless it is the last. -/
def IsClean (path : Bytes) : Prop :=
  ∃ segments last, path = segments.flatMap (fun s => byte '/' :: s) ++ byte '/' :: last ∧
    (∀ s ∈ segments ++ [last], byte '/' ∉ s ∧ s ≠ utf8 ".".toList ∧ s ≠ utf8 "..".toList) ∧
    ∀ s ∈ segments, s ≠ []

/-- The path of a request that reaches the handler, as it was sent and as it is decoded. -/
structure RequestPath where
  encoded : Bytes
  decoded : Bytes
  clean : IsClean encoded
  decodes : unescape encoded = some decoded

/-- Decoding leaves the slash a clean path starts with. -/
theorem RequestPath.rooted (p : RequestPath) : ∃ rest, p.decoded = byte '/' :: rest := by
  have hslash : byte '/' ≠ byte '%' := by decide
  obtain ⟨segments, last, hpath, -⟩ := p.clean
  have hstart : ∃ rest, p.encoded = byte '/' :: rest := by
    cases segments with
    | nil => exact ⟨last, hpath⟩
    | cons s segments => exact ⟨_, hpath⟩
  obtain ⟨rest, hrest⟩ := hstart
  have hdecodes := p.decodes
  rw [hrest, unescape_cons hslash] at hdecodes
  obtain ⟨ds, -, hds⟩ := Option.map_eq_some_iff.1 hdecodes
  exact ⟨ds, hds.symm⟩

/-- What `net/http` reads in the URL that `Forward` hands it. -/
def upstreamUrl (base : BaseUrl) (authHeader : Str) (p : RequestPath) (header : Header)
    (body : Bytes) : Option Url :=
  UrlText.parse ((⟨base.text, authHeader⟩ : Client).upstreamRequest p.decoded header body).url

/-- When the request is made, its path decodes to that of the caller's request, and it has
no query and no fragment. -/
def ForwardedVerbatim (base : BaseUrl) (authHeader : Str) (p : RequestPath) (header : Header)
    (body : Bytes) : Prop :=
  ∀ url, upstreamUrl base authHeader p header body = some url →
    url.path = p.decoded ∧ url.query = none ∧ url.fragment = none

/-- No byte that means something in a URL. -/
def Inert (path : Bytes) : Prop := byte '#' ∉ path ∧ byte '?' ∉ path ∧ byte '%' ∉ path

/-- The part of a path in front of a fragment, and that in front of a query as well. -/
def beforeFragment (path : Bytes) : Bytes := (cut (byte '#') path).1

def beforeQuery (path : Bytes) : Bytes := (cut (byte '?') (beforeFragment path)).1

/-- What makes a path no part of a URL: a control byte in front of its fragment, or a
malformed escape in front of its query or in its fragment. -/
def Unreadable (path : Bytes) : Prop :=
  (∃ b ∈ beforeFragment path, isControl b) ∨ unescape (beforeQuery path) = none ∨
    unescapeFragment (cut (byte '#') path).2 = none

theorem BaseUrl.not_mem_text (base : BaseUrl) {b : UInt8} (hscheme : isSchemeByte b = false)
    (hseparator : b ∉ utf8 "://".toList) (hauthority : b ∉ base.authority) : b ∉ base.text := by
  intro hmem
  rcases List.mem_append.1 hmem with hmem | hmem
  · rcases List.mem_append.1 hmem with hmem | hmem
    · rw [base.schemeBytes b hmem] at hscheme
      cases hscheme
    · exact hseparator hmem
  · exact hauthority hmem

theorem BaseUrl.hash (base : BaseUrl) : byte '#' ∉ base.text :=
  base.not_mem_text (by decide) (by decide +kernel) fun h => (base.authorityBytes _ h).2.2.1 rfl

theorem BaseUrl.question (base : BaseUrl) : byte '?' ∉ base.text :=
  base.not_mem_text (by decide) (by decide +kernel) fun h => (base.authorityBytes _ h).2.1 rfl

theorem BaseUrl.printable (base : BaseUrl) : ∀ b ∈ base.text, isControl b = false := by
  intro b hmem
  rcases List.mem_append.1 hmem with hmem | hmem
  · rcases List.mem_append.1 hmem with hmem | hmem
    · exact isControl_of_scheme (base.schemeBytes b hmem)
    · have hall : ∀ b ∈ utf8 "://".toList, isControl b = false := by decide +kernel
      exact hall b hmem
  · exact (base.authorityBytes b hmem).2.2.2

theorem splitAuthority_base (base : BaseUrl) (rest : Bytes) :
    splitAuthority (base.text ++ byte '/' :: rest) =
      some (base.scheme, base.authority, byte '/' :: rest) := by
  have hcolon : isSchemeByte (byte ':') = false := by decide
  have hseparator : utf8 "://".toList = [byte ':', byte '/', byte '/'] := by decide +kernel
  have htext : base.text ++ byte '/' :: rest =
      base.scheme ++ byte ':' :: byte '/' :: byte '/' :: (base.authority ++ byte '/' :: rest) := by
    rw [BaseUrl.text, hseparator]
    simp
  have hscheme : ∀ tail, (base.scheme ++ byte ':' :: tail).takeWhile isSchemeByte = base.scheme ∧
      (base.scheme ++ byte ':' :: tail).dropWhile isSchemeByte = byte ':' :: tail := by
    intro tail
    rw [List.takeWhile_append_of_pos base.schemeBytes, List.dropWhile_append_of_pos base.schemeBytes,
      List.takeWhile_cons, List.dropWhile_cons, hcolon]
    simp
  have hbytes : ∀ b ∈ base.authority, (b != byte '/') = true := by
    intro b hb
    simpa using (base.authorityBytes b hb).1
  have hauthority : (base.authority ++ byte '/' :: rest).takeWhile (· != byte '/') =
        base.authority ∧
      (base.authority ++ byte '/' :: rest).dropWhile (· != byte '/') = byte '/' :: rest := by
    rw [List.takeWhile_append_of_pos hbytes, List.dropWhile_append_of_pos hbytes]
    simp
  rw [htext, splitAuthority, (hscheme _).1, (hscheme _).2]
  simp [hauthority.1, hauthority.2]

/-- The upstream URL is read off the path alone. -/
theorem upstreamUrl_eq (base : BaseUrl) (authHeader : Str) (p : RequestPath) (header : Header)
    (body : Bytes) : upstreamUrl base authHeader p header body =
      if (beforeFragment p.decoded).all (fun b => !isControl b) then
        (unescape (beforeQuery p.decoded)).bind fun path =>
          (unescapeFragment (cut (byte '#') p.decoded).2).map fun fragment =>
            ⟨base.scheme, base.authority, path, (cut (byte '?') (beforeFragment p.decoded)).2,
              fragment⟩
      else none := by
  obtain ⟨rest, hrest⟩ := p.rooted
  have hfront : ∃ front, beforeFragment p.decoded = byte '/' :: front := by
    rw [hrest, beforeFragment, cut, if_neg (by decide)]
    exact ⟨_, rfl⟩
  obtain ⟨front, hfront⟩ := hfront
  have hquery : ∃ path, beforeQuery p.decoded = byte '/' :: path := by
    rw [beforeQuery, hfront, cut, if_neg (by decide)]
    exact ⟨_, rfl⟩
  obtain ⟨path, hpath⟩ := hquery
  have hurl : ((⟨base.text, authHeader⟩ : Client).upstreamRequest p.decoded header body).url =
      base.text ++ p.decoded := rfl
  have hall : ∀ bs : Bytes, (base.text ++ bs).all (fun b => !isControl b) =
      bs.all fun b => !isControl b := by
    intro bs
    have hbase : base.text.all (fun b => !isControl b) = true := by
      rw [List.all_eq_true]
      intro b hb
      rw [base.printable b hb]
      rfl
    rw [List.all_append, hbase, Bool.true_and]
  have hsplit : splitAuthority (base.text ++ beforeQuery p.decoded) =
      some (base.scheme, base.authority, beforeQuery p.decoded) := by
    rw [hpath, splitAuthority_base]
  unfold beforeQuery beforeFragment at hsplit ⊢
  simp only [upstreamUrl, hurl, UrlText.parse, cut_append base.hash, cut_append base.question,
    hall, hsplit, Option.bind_some]

theorem upstreamUrl_eq_none {base : BaseUrl} {authHeader : Str} {p : RequestPath} {header : Header}
    {body : Bytes} : upstreamUrl base authHeader p header body = none ↔ Unreadable p.decoded := by
  rw [upstreamUrl_eq, Unreadable]
  by_cases hcontrol : (beforeFragment p.decoded).all (fun b => !isControl b)
  · have hnone : ¬ ∃ b ∈ beforeFragment p.decoded, isControl b := by
      rintro ⟨b, hb, hc⟩
      have hb' := List.all_eq_true.1 hcontrol b hb
      simp [hc] at hb'
    rw [if_pos hcontrol]
    simp only [hnone, false_or]
    cases unescape (beforeQuery p.decoded) with
    | none => simp
    | some path => simp
  · have hsome : ∃ b ∈ beforeFragment p.decoded, isControl b := by
      simpa using hcontrol
    simp [hcontrol, hsome]

/-- The path of a request reaches the node as it was, unless some byte of the decoded path
means something in a URL and the URL can still be read. -/
theorem forwardedVerbatim_iff (base : BaseUrl) (authHeader : Str) (p : RequestPath)
    (header : Header) (body : Bytes) :
    ForwardedVerbatim base authHeader p header body ↔ Inert p.decoded ∨ Unreadable p.decoded := by
  constructor
  · intro hverbatim
    by_cases hread : Unreadable p.decoded
    · exact .inr hread
    · left
      obtain ⟨url, hurl⟩ := Option.ne_none_iff_exists'.1 fun h => hread (upstreamUrl_eq_none.1 h)
      obtain ⟨hpath, hquery, hfragment⟩ := hverbatim url hurl
      rw [upstreamUrl_eq] at hurl
      split at hurl
      · obtain ⟨path, hdecoded, hurl⟩ := Option.bind_eq_some_iff.1 hurl
        obtain ⟨fragment, hfragments, rfl⟩ := Option.map_eq_some_iff.1 hurl
        obtain rfl : path = p.decoded := hpath
        obtain rfl : fragment = none := hfragment
        have hnohash : (cut (byte '#') p.decoded).2 = none := by
          cases hcut : (cut (byte '#') p.decoded).2 with
          | none => rfl
          | some f => simp [hcut, unescapeFragment] at hfragments
        have hhash := not_mem_of_cut hnohash
        have hfront : beforeFragment p.decoded = p.decoded := by
          rw [beforeFragment, cut_of_not_mem hhash]
        have hquestion : byte '?' ∉ p.decoded := by
          rw [hfront] at hquery
          exact not_mem_of_cut hquery
        rw [beforeQuery, hfront, cut_of_not_mem hquestion] at hdecoded
        exact ⟨hhash, hquestion, not_mem_of_unescape_eq hdecoded⟩
      · cases hurl
  · rintro (⟨hhash, hquestion, hpercent⟩ | hread) url hurl
    · have hfront : beforeFragment p.decoded = p.decoded := by
        rw [beforeFragment, cut_of_not_mem hhash]
      rw [upstreamUrl_eq, beforeQuery, hfront, cut_of_not_mem hhash, cut_of_not_mem hquestion,
        unescape_of_not_mem hpercent] at hurl
      split at hurl
      · obtain rfl := Option.some.inj hurl
        exact ⟨rfl, rfl, rfl⟩
      · cases hurl
    · rw [upstreamUrl_eq_none.2 hread] at hurl
      cases hurl

/-- The node's address as the charm configures it. -/
def loopback : BaseUrl where
  scheme := utf8 "http".toList
  authority := utf8 "127.0.0.1:8332".toList
  schemeBytes := by decide +kernel
  authorityBytes := by decide +kernel

def questionableWallet : RequestPath where
  encoded := utf8 "/wallet/a%3Fb".toList
  decoded := utf8 "/wallet/a?b".toList
  clean := ⟨[utf8 "wallet".toList], utf8 "a%3Fb".toList, by decide +kernel, by decide +kernel⟩
  decodes := by decide +kernel

theorem forwarded_wallet_is_cut :
    ¬ ∀ (base : BaseUrl) (authHeader : Str) (p : RequestPath) (header : Header) (body : Bytes),
      ForwardedVerbatim base authHeader p header body := by
  intro hall
  have hurl : upstreamUrl loopback [] questionableWallet [] [] =
      some ⟨utf8 "http".toList, utf8 "127.0.0.1:8332".toList, utf8 "/wallet/a".toList,
        some (utf8 "b".toList), none⟩ := by decide +kernel
  have hquery := (hall loopback [] questionableWallet [] [] _ hurl).2.1
  cases hquery

end BitcoinRpcOperator.PathForwarding
