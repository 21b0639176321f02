import ChainBeasts.Backtracking
import ChainBeasts.Onchain.HttpClient

/-! # The plugins on the marketplace

`plugin_marketplace_server.js` answers with its list of plugins as `JSON.stringify` writes it, and
`fetch_available_plugins` of `plugin_loader.hpp` looks for plugins in the answer with a regular
expression. The expression does not know the escapes of JSON and stops at braces, so what it finds is
the list exactly if no plugin needs them (`fetch_served_iff`).

The expression cannot match in any other way than from the key of a name on: a string of the list may
hold anything, also what looks like a plugin, but there its quotes have backslashes in front
(`misses_inside`). Strings are their bytes in UTF-8. The matcher has no limits of its own: that an
implementation of `std::regex` may run out of stack on a long text is not modelled. -/

namespace ChainBeasts.Client.PluginCatalogue

open ChainBeasts.Evm ChainBeasts.Framing ChainBeasts.Backtracking ChainBeasts.Search
open ChainBeasts.Onchain
open ChainBeasts.Pouw.ProofSystem (hex)

abbrev Byte := BitVec 8

/-- A plugin of `plugins.json`, its fields in this order. -/
structure PluginInfo where
  name : Bytes
  version : Bytes
  description : Bytes
  url : Bytes

/-! ## What the server writes -/

/-- A character of a string, by `QuoteJSONString`. -/
def escape (c : Byte) : Bytes :=
  if c = 0x22 ∨ c = 0x5c then [0x5c, c]
  else if c = 0x08 then text "\\b"
  else if c = 0x09 then text "\\t"
  else if c = 0x0a then text "\\n"
  else if c = 0x0c then text "\\f"
  else if c = 0x0d then text "\\r"
  else if c < 0x20 then text "\\u00" ++ [hex (c.extractLsb' 4 4), hex (c.extractLsb' 0 4)]
  else [c]

def quote (s : Bytes) : Bytes := 0x22 :: (s.flatMap escape ++ [0x22])

def member (key : String) (value : Bytes) : Bytes := quote (text key) ++ 0x3a :: quote value

def object (p : PluginInfo) : Bytes :=
  0x7b :: (member "name" p.name ++ 0x2c :: (member "version" p.version ++
    0x2c :: (member "description" p.description ++ 0x2c :: (member "url" p.url ++ [0x7d]))))

/-- The elements of a list behind its first. -/
def more : List PluginInfo → Bytes
  | [] => [0x5d]
  | p :: ps => 0x2c :: (object p ++ more ps)

/-- `JSON.stringify(plugins)`. -/
def stringify : List PluginInfo → Bytes
  | [] => [0x5b, 0x5d]
  | p :: ps => 0x5b :: (object p ++ more ps)

/-! ## What the loader reads -/

structure MarketplacePlugin where
  name : Bytes
  version : Bytes
  url : Bytes
  deriving DecidableEq

/-- `\s*:\s*"([^"]+)"`. -/
def value : Reader Byte Bytes := do
  skip isspace
  literal [0x3a]
  skip isspace
  literal [0x22]
  let v ← capture (· ≠ 0x22)
  literal [0x22]
  pure v

/-- The same behind a key in quotes. -/
def field (key : Bytes) : Reader Byte Bytes := do
  literal (0x22 :: (key ++ [0x22]))
  value

/-- `[^{}]`. -/
def unbraced (c : Byte) : Bool := c ≠ 0x7b ∧ c ≠ 0x7d

/-- The expression, from the key of the url on, from that of the version on, and all of it. -/
def itemUrl (name version : Bytes) : Reader Byte MarketplacePlugin := do
  let url ← field (text "url")
  pure ⟨name, version, url⟩

def itemVersion (name : Bytes) : Reader Byte MarketplacePlugin := do
  let version ← field (text "version")
  gap unbraced (itemUrl name version)

def item : Reader Byte MarketplacePlugin := do
  let name ← field (text "name")
  gap unbraced (itemVersion name)

/-- The response without its head. -/
def body (chk : Bytes) : Bytes :=
  match find chk (text "HTTP/1.1") 0 with
  | none => chk
  | some pos =>
      if pos + 12 ≤ chk.length then
        match find chk (text "\r\n\r\n") pos with
        | some headerEnd => chk.drop (headerEnd + 4)
        | none => chk
      else chk

/-- The loop of `http_get` from its attempt number `attempt` on, with `attempts` left. -/
def getFrom (net : Nat → Attempt) : (attempts attempt : Nat) → Option Bytes
  | 0, _ => none
  | attempts + 1, attempt =>
    match net attempt with
    | .invalidHost => none
    | .exchanged _ received =>
        if statusOk received then some (body received) else getFrom net attempts (attempt + 1)
    | _ => getFrom net attempts (attempt + 1)

def httpGet (net : Nat → Attempt) : Option Bytes := getFrom net 3 0

def fetchAvailablePlugins (net : Nat → Attempt) : List MarketplacePlugin :=
  match httpGet net with
  | none => []
  | some resp => scan item resp

/-! ## Strings -/

/-- Written as it is. -/
def Plain (s : Bytes) : Prop := ∀ c ∈ s, 0x20 ≤ c ∧ c ≠ 0x22 ∧ c ≠ 0x5c

theorem escape_plain {c : Byte} (h : 0x20 ≤ c ∧ c ≠ 0x22 ∧ c ≠ 0x5c) : escape c = [c] := by
  revert c
  decide

theorem escape_special {c : Byte} (h : ¬ (0x20 ≤ c ∧ c ≠ 0x22 ∧ c ≠ 0x5c)) :
    (escape c).head? = some 0x5c ∧ 2 ≤ (escape c).length := by
  revert c
  decide +kernel

theorem quote_mem_escape {c : Byte} : 0x22 ∈ escape c ↔ c = 0x22 := by
  revert c
  decide +kernel

theorem escape_unbraced (c : Byte) : (escape c).all unbraced = unbraced c := by
  revert c
  decide +kernel

theorem flatMap_escape_plain {s : Bytes} (h : Plain s) : s.flatMap escape = s := by
  induction s with
  | nil => rfl
  | cons c s ih =>
      rw [List.flatMap_cons, escape_plain (h c List.mem_cons_self),
        ih fun d hd => h d (List.mem_cons_of_mem c hd)]
      rfl

theorem length_le_escaped (s : Bytes) : s.length ≤ (s.flatMap escape).length := by
  induction s with
  | nil => exact Nat.le_refl _
  | cons c s ih =>
      rw [List.flatMap_cons, List.length_append, List.length_cons]
      by_cases hc : 0x20 ≤ c ∧ c ≠ 0x22 ∧ c ≠ 0x5c
      · rw [escape_plain hc, List.length_singleton]
        omega
      · have htwo := (escape_special hc).2
        omega

/-- Only what is plain is written as it is. -/
theorem plain_of_escaped {s : Bytes} (h : s.flatMap escape = s) : Plain s := by
  induction s with
  | nil => exact fun c hc => absurd hc List.not_mem_nil
  | cons c s ih =>
      have hlength := congrArg List.length h
      rw [List.flatMap_cons, List.length_append, List.length_cons] at hlength
      have hle := length_le_escaped s
      by_cases hc : 0x20 ≤ c ∧ c ≠ 0x22 ∧ c ≠ 0x5c
      · rw [List.flatMap_cons, escape_plain hc, List.singleton_append, List.cons.injEq] at h
        exact List.forall_mem_cons.mpr ⟨hc, ih h.2⟩
      · have htwo := (escape_special hc).2
        omega

theorem quote_mem_escaped {s : Bytes} : 0x22 ∈ s.flatMap escape ↔ 0x22 ∈ s := by
  rw [List.mem_flatMap]
  constructor
  · rintro ⟨c, hc, hquote⟩
    exact quote_mem_escape.mp hquote ▸ hc
  · exact fun h => ⟨0x22, h, quote_mem_escape.mpr rfl⟩

theorem all_escaped (s : Bytes) : (s.flatMap escape).all unbraced = s.all unbraced := by
  rw [List.all_flatMap]
  simp only [escape_unbraced]

/-! ## Keys -/

/-- **A key is found where a string is the key**, wherever in the string one starts. -/
theorem eq_of_key {key s t : Bytes} (hkey : Plain key)
    (h : key ++ [0x22] <+: s.flatMap escape ++ 0x22 :: t) : s = key := by
  induction key generalizing s with
  | nil =>
      cases s with
      | nil => rfl
      | cons c s =>
          exfalso
          obtain ⟨rest, hrest⟩ := h
          rw [List.flatMap_cons, List.append_assoc] at hrest
          by_cases hc : 0x20 ≤ c ∧ c ≠ 0x22 ∧ c ≠ 0x5c
          · rw [escape_plain hc] at hrest
            exact hc.2.1 (List.cons.inj hrest).1.symm
          · obtain ⟨e, he⟩ := List.head?_eq_some_iff.mp (escape_special hc).1
            rw [he] at hrest
            exact absurd (List.cons.inj hrest).1 (by decide)
  | cons k key ih =>
      obtain ⟨hk, hkeys⟩ := List.forall_mem_cons.mp hkey
      cases s with
      | nil =>
          rw [List.flatMap_nil, List.nil_append, List.cons_append, List.cons_prefix_cons] at h
          exact absurd h.1 hk.2.1
      | cons c s =>
          rw [List.flatMap_cons, List.append_assoc, List.cons_append] at h
          by_cases hc : 0x20 ≤ c ∧ c ≠ 0x22 ∧ c ≠ 0x5c
          · rw [escape_plain hc, List.singleton_append, List.cons_prefix_cons] at h
            rw [h.1, ih hkeys h.2]
          · obtain ⟨e, he⟩ := List.head?_eq_some_iff.mp (escape_special hc).1
            rw [he, List.cons_append, List.cons_prefix_cons] at h
            exact absurd h.1 hk.2.2

theorem literal_of_ne {c : Byte} {lit s : Bytes} (hc : c ≠ 0x22) :
    literal (0x22 :: lit) (c :: s) = none := by
  rw [literal, if_neg]
  intro h
  exact hc (List.cons_prefix_cons.mp h).1.symm

theorem field_of_ne {key s : Bytes} {c : Byte} (hc : c ≠ 0x22) : field key (c :: s) = none := by
  show (literal _ _).bind _ = none
  rw [literal_of_ne hc, Option.bind_none]

/-- Behind the rest of a string, the key is there if the rest is the key. -/
theorem field_string {key s t : Bytes} (hkey : Plain key) :
    field key (0x22 :: (s.flatMap escape ++ 0x22 :: t)) = if s = key then value t else none := by
  show (literal _ _).bind _ = _
  by_cases hs : s = key
  · have htext : (0x22 :: (s.flatMap escape ++ 0x22 :: t) : Bytes) =
        (0x22 :: (key ++ [0x22])) ++ t := by
      rw [hs, flatMap_escape_plain hkey]
      simp
    rw [htext, literal_append, if_pos hs]
    rfl
  · rw [if_neg hs, literal, if_neg, Option.bind_none]
    intro h
    exact hs (eq_of_key hkey (List.cons_prefix_cons.mp h).2)

/-- The end of a string is not the beginning of a key. -/
theorem field_end {key s : Bytes} {c : Byte} (hkey : key ≠ []) (hc : c ∉ key) :
    field key (0x22 :: c :: s) = none := by
  obtain ⟨k, key, rfl⟩ := List.exists_cons_of_ne_nil hkey
  show (literal _ _).bind _ = none
  rw [literal, if_neg, Option.bind_none]
  intro h
  have hhead := (List.cons_prefix_cons.mp (List.cons_prefix_cons.mp h).2).1
  exact hc (hhead ▸ List.mem_cons_self)

/-- No value begins behind a comma or a brace. -/
theorem value_of_ne {c : Byte} {s : Bytes} (hspace : isspace c = false) (hcolon : c ≠ 0x3a) :
    value (c :: s) = none := by
  show (literal [0x3a] ((c :: s).dropWhile isspace)).bind _ = none
  rw [List.dropWhile_cons_of_neg (by simp [hspace]), literal, if_neg, Option.bind_none]
  intro h
  exact hcolon (List.cons_prefix_cons.mp h).1.symm

/-- **Nothing begins inside a string**: a quote in it is behind a backslash, and the text up to the
next is never a key with a colon. -/
theorem misses_inside {key s t : Bytes} {c : Byte} (hkey : Plain key) (hne : key ≠ [])
    (hc : c ∉ key) (hvalue : 0x22 ∈ s → value (c :: t) = none) :
    Misses (field key) (s.flatMap escape ++ [0x22]) (c :: t) := by
  induction s with
  | nil => exact ⟨field_end hne hc, trivial⟩
  | cons d s ih =>
      have hrest := ih fun h => hvalue (List.mem_cons_of_mem d h)
      rw [List.flatMap_cons, List.append_assoc, misses_append]
      refine ⟨?_, hrest⟩
      by_cases hquote : d = 0x22
      · subst hquote
        refine ⟨field_of_ne (by decide), ?_, trivial⟩
        show field key (0x22 :: ((s.flatMap escape ++ [0x22]) ++ c :: t)) = none
        rw [List.append_assoc, List.singleton_append, field_string hkey,
          hvalue List.mem_cons_self, ite_self]
      · have hfree : ∀ b ∈ escape d, b ≠ 0x22 := fun b hb heq =>
          hquote (quote_mem_escape.mp (heq ▸ hb))
        generalize escape d = e at hfree
        induction e with
        | nil => trivial
        | cons b e ihe =>
            exact ⟨field_of_ne (hfree b List.mem_cons_self),
              ihe fun b' hb' => hfree b' (List.mem_cons_of_mem b hb')⟩

/-! ## Values -/

/-- Behind the quote that begins a string. -/
def unquote : Reader Byte Bytes := do
  let v ← capture (· ≠ 0x22)
  literal [0x22]
  pure v

theorem value_quote (v t : Bytes) :
    value (0x3a :: (quote v ++ t)) = unquote (v.flatMap escape ++ 0x22 :: t) := by
  have htext : quote v ++ t = 0x22 :: (v.flatMap escape ++ 0x22 :: t) := by simp [quote]
  rw [htext]
  rfl

theorem unquote_free {s : Bytes} (h : 0x22 ∉ s) (t : Bytes) :
    unquote (s ++ 0x22 :: t) = if s = [] then none else some (s, t) := by
  have hfree : ∀ c ∈ s, decide (c ≠ 0x22) = true := fun c hc =>
    decide_eq_true fun heq => h (heq ▸ hc)
  have htake : (s ++ 0x22 :: t).takeWhile (· ≠ 0x22) = s := by
    rw [List.takeWhile_append_of_pos hfree]
    simp
  have hdrop : (s ++ 0x22 :: t).dropWhile (· ≠ 0x22) = 0x22 :: t := by
    rw [List.dropWhile_append_of_pos hfree]
    simp
  have hcapture : capture (· ≠ 0x22) (s ++ 0x22 :: t) =
      if s = [] then none else some (s, 0x22 :: t) := by
    rw [capture, htake, hdrop]
  split
  · next hnil =>
      show (capture _ _).bind _ = none
      rw [hcapture, if_pos hnil, Option.bind_none]
  · next hne =>
      apply bind_eq_some.mpr
      refine ⟨s, 0x22 :: t, by rw [hcapture, if_neg hne], ?_⟩
      exact bind_eq_some.mpr ⟨(), t, literal_append [0x22] t, rfl⟩

theorem value_plain {v : Bytes} (hplain : Plain v) (hne : v ≠ []) (t : Bytes) :
    value (0x3a :: (quote v ++ t)) = some (v, t) := by
  have hfree : 0x22 ∉ v := fun h => (hplain _ h).2.1 rfl
  rw [value_quote, flatMap_escape_plain hplain, unquote_free hfree, if_neg hne]

/-- What is read is not the value unless this is plain. -/
theorem plain_of_value {v t r : Bytes} (h : value (0x3a :: (quote v ++ t)) = some (v, r)) :
    Plain v ∧ v ≠ [] := by
  rw [value_quote] at h
  have hcaptured : ∃ s, unquote (v.flatMap escape ++ 0x22 :: t) = some (v, s) ∧ 0x22 ∉ v := by
    refine ⟨r, h, ?_⟩
    obtain ⟨w, s', hw, hrest⟩ := bind_eq_some.mp h
    obtain ⟨-, s'', -, hpure⟩ := bind_eq_some.mp hrest
    obtain ⟨rfl, -⟩ := pure_eq_some.mp hpure
    simp only [capture, Option.ite_none_left_eq_some, Option.some.injEq, Prod.mk.injEq] at hw
    rw [← hw.2.1]
    intro hmem
    have hkept := List.mem_takeWhile_imp hmem
    simp at hkept
  obtain ⟨s, hs, hfree⟩ := hcaptured
  rw [unquote_free (quote_mem_escaped.not.mpr hfree)] at hs
  simp only [Option.ite_none_left_eq_some, Option.some.injEq, Prod.mk.injEq] at hs
  obtain ⟨hne, hsame, -⟩ := hs
  exact ⟨plain_of_escaped hsame, hsame ▸ hne⟩

/-! ## Members -/

/-- A key that the expression asks for. -/
structure IsKey (key : Bytes) : Prop where
  plain : Plain key
  ne_nil : key ≠ []
  punctuation : 0x3a ∉ key ∧ 0x2c ∉ key ∧ 0x7d ∉ key

/-- A member behind its first quote. -/
def memberTail (k : String) (v : Bytes) : Bytes :=
  (text k).flatMap escape ++ [0x22] ++ 0x3a :: quote v

theorem member_eq (k : String) (v : Bytes) : member k v = 0x22 :: memberTail k v := by
  simp [member, quote, memberTail]

theorem field_member {key : Bytes} (hkey : Plain key) (k : String) (v t : Bytes) :
    field key (0x22 :: (memberTail k v ++ t)) =
      if text k = key then value (0x3a :: (quote v ++ t)) else none := by
  rw [← field_string hkey]
  simp [memberTail]

theorem misses_memberTail {key : Bytes} (hkey : IsKey key) {k : String} (hk : Plain (text k))
    (v : Bytes) {c : Byte} (hc : c = 0x2c ∨ c = 0x7d) (t : Bytes) :
    Misses (field key) (memberTail k v) (c :: t) := by
  obtain ⟨hcolon, hcomma, hbrace⟩ := hkey.punctuation
  have hout : c ∉ key := by
    rcases hc with rfl | rfl
    · exact hcomma
    · exact hbrace
  have hvalue : value (c :: t) = none := by
    rcases hc with rfl | rfl
    · exact value_of_ne (by decide) (by decide)
    · exact value_of_ne (by decide) (by decide)
  have hquote : Misses (field key) (quote v) (c :: t) := by
    refine ⟨?_, misses_inside hkey.plain hkey.ne_nil hout fun _ => hvalue⟩
    rw [List.append_assoc, List.singleton_append, field_string hkey.plain, hvalue, ite_self]
  rw [memberTail, misses_append]
  refine ⟨?_, field_of_ne (by decide), hquote⟩
  exact misses_inside hkey.plain hkey.ne_nil hcolon fun h => absurd rfl (hk _ h).2.1

theorem misses_member {key : Bytes} (hkey : IsKey key) {k : String} (hk : Plain (text k))
    (hne : text k ≠ key) (v : Bytes) {c : Byte} (hc : c = 0x2c ∨ c = 0x7d) (t : Bytes) :
    Misses (field key) (member k v) (c :: t) := by
  rw [member_eq]
  refine ⟨?_, misses_memberTail hkey hk v hc t⟩
  rw [field_member hkey.plain, if_neg hne]

instance (s : Bytes) : Decidable (Plain s) :=
  inferInstanceAs (Decidable (∀ c ∈ s, 0x20 ≤ c ∧ c ≠ 0x22 ∧ c ≠ 0x5c))

theorem isKey_name : IsKey (text "name") := ⟨by decide, by decide, by decide⟩

theorem isKey_version : IsKey (text "version") := ⟨by decide, by decide, by decide⟩

theorem isKey_url : IsKey (text "url") := ⟨by decide, by decide, by decide⟩

theorem plain_description : Plain (text "description") := by decide

/-! ## Objects -/

/-- An object behind the key of its url, behind the key of its version, and behind that of its
name. -/
def urlTail (p : PluginInfo) : Bytes := memberTail "url" p.url ++ [0x7d]

def versionTail (p : PluginInfo) : Bytes :=
  memberTail "version" p.version ++ 0x2c :: (member "description" p.description ++
    0x2c :: 0x22 :: urlTail p)

def nameTail (p : PluginInfo) : Bytes :=
  memberTail "name" p.name ++ 0x2c :: 0x22 :: versionTail p

theorem object_eq (p : PluginInfo) : object p = 0x7b :: 0x22 :: nameTail p := by
  simp only [object, nameTail, versionTail, urlTail, member_eq, List.cons_append]

theorem urlTail_append (p : PluginInfo) (t : Bytes) :
    urlTail p ++ t = memberTail "url" p.url ++ 0x7d :: t := by
  simp [urlTail]

theorem versionTail_append (p : PluginInfo) (t : Bytes) :
    versionTail p ++ t = memberTail "version" p.version ++
      0x2c :: (member "description" p.description ++ 0x2c :: 0x22 :: (urlTail p ++ t)) := by
  simp [versionTail]

theorem nameTail_append (p : PluginInfo) (t : Bytes) :
    nameTail p ++ t = memberTail "name" p.name ++ 0x2c :: 0x22 :: (versionTail p ++ t) := by
  simp [nameTail]

theorem misses_urlTail (p : PluginInfo) (t : Bytes) : Misses (field (text "url")) (urlTail p) t := by
  rw [urlTail, misses_append]
  exact ⟨misses_memberTail isKey_url isKey_url.plain _ (Or.inr rfl) _, field_of_ne (by decide),
    trivial⟩

/-- No other key begins at the url. -/
theorem misses_url {key : Bytes} (hkey : IsKey key) (hne : text "url" ≠ key) (p : PluginInfo)
    (t : Bytes) : Misses (field key) (0x22 :: urlTail p) t := by
  have htext : 0x22 :: urlTail p = member "url" p.url ++ [0x7d] := by
    rw [member_eq, urlTail, List.cons_append]
  rw [htext, misses_append]
  exact ⟨misses_member hkey isKey_url.plain hne _ (Or.inr rfl) _, field_of_ne (by decide), trivial⟩

theorem misses_description {key : Bytes} (hkey : IsKey key) (hne : text "description" ≠ key)
    (d : Bytes) {c : Byte} (hc : c = 0x2c ∨ c = 0x7d) (t : Bytes) :
    Misses (field key) (0x2c :: member "description" d) (c :: t) :=
  ⟨field_of_ne (by decide), misses_member hkey plain_description hne d hc t⟩

theorem misses_versionTail (p : PluginInfo) (t : Bytes) :
    Misses (field (text "version")) (versionTail p) t := by
  have htext : versionTail p = memberTail "version" p.version ++
      (0x2c :: member "description" p.description ++ (0x2c :: 0x22 :: urlTail p)) := by
    simp [versionTail]
  rw [htext, misses_append, misses_append]
  refine ⟨?_, ?_, field_of_ne (by decide), misses_url isKey_version (by decide) p t⟩
  · exact misses_memberTail isKey_version isKey_version.plain _ (Or.inl rfl) _
  · exact misses_description isKey_version (by decide) _ (Or.inl rfl) _

theorem misses_nameTail (p : PluginInfo) (t : Bytes) :
    Misses (field (text "name")) (nameTail p) t := by
  have htext : nameTail p = memberTail "name" p.name ++ (0x2c :: member "version" p.version ++
      (0x2c :: member "description" p.description ++ (0x2c :: 0x22 :: urlTail p))) := by
    simp [nameTail, versionTail, member_eq]
  rw [htext, misses_append, misses_append, misses_append]
  refine ⟨?_, ⟨field_of_ne (by decide), ?_⟩, ?_, field_of_ne (by decide),
    misses_url isKey_name (by decide) p t⟩
  · exact misses_memberTail isKey_name isKey_name.plain _ (Or.inl rfl) _
  · exact misses_member isKey_name isKey_version.plain (by decide) _ (Or.inl rfl) _
  · exact misses_description isKey_name (by decide) _ (Or.inl rfl) _

/-- The gap behind the name ends at the key of the version. -/
theorem gap_name (name : Bytes) (p : PluginInfo) (t : Bytes) :
    gap unbraced (itemVersion name) (0x2c :: 0x22 :: (versionTail p ++ t)) =
      itemVersion name (0x22 :: (versionTail p ++ t)) := by
  have hcomma : gap unbraced (itemVersion name) ([0x2c] ++ 0x22 :: (versionTail p ++ t)) =
      gap unbraced (itemVersion name) (0x22 :: (versionTail p ++ t)) :=
    gap_append (by decide) (bind_misses ⟨field_of_ne (by decide), trivial⟩)
  have hbrace : 0x7d ∈ versionTail p := by simp [versionTail, urlTail]
  exact hcomma.trans (gap_here hbrace (by decide) (bind_misses (misses_versionTail p t)))

/-- The gap behind the version ends at the key of the url, or at a brace in the description. -/
theorem gap_version (name version : Bytes) (p : PluginInfo) (t : Bytes) :
    gap unbraced (itemUrl name version)
        (0x2c :: (member "description" p.description ++ 0x2c :: 0x22 :: (urlTail p ++ t))) =
      if p.description.all unbraced then itemUrl name version (0x22 :: (urlTail p ++ t))
      else none := by
  have hkeys : (quote (text "description")).all unbraced = true := by decide
  have hclass : (0x2c :: member "description" p.description ++ [0x2c]).all unbraced =
      p.description.all unbraced := by
    have hcomma : unbraced 0x2c = true := by decide
    have hquote : unbraced 0x22 = true := by decide
    have hcolon : unbraced 0x3a = true := by decide
    have hvalue : (quote p.description).all unbraced = p.description.all unbraced := by
      simp only [quote, List.all_cons, List.all_append, List.all_nil, all_escaped, hquote,
        Bool.true_and, Bool.and_true]
    simp only [member, List.cons_append, List.all_cons, List.all_append, List.all_nil, hkeys, hvalue,
      hcomma, hcolon, Bool.true_and, Bool.and_true]
  have hmiss : Misses (itemUrl name version) (0x2c :: member "description" p.description ++ [0x2c])
      (0x22 :: (urlTail p ++ t)) := by
    rw [misses_append]
    exact ⟨bind_misses (misses_description isKey_url (by decide) _ (Or.inl rfl) _),
      bind_misses ⟨field_of_ne (by decide), trivial⟩⟩
  have htext : 0x2c :: (member "description" p.description ++ 0x2c :: 0x22 :: (urlTail p ++ t)) =
      (0x2c :: member "description" p.description ++ [0x2c]) ++ 0x22 :: (urlTail p ++ t) := by
    simp
  rw [htext, ← hclass]
  split
  · next hall =>
      rw [gap_append (List.all_eq_true.mp hall) hmiss]
      have hbrace : 0x7d ∈ urlTail p := by simp [urlTail]
      exact gap_here hbrace (by decide) (bind_misses (misses_urlTail p t))
  · next hnot =>
      simp only [List.all_eq_true, not_forall, Bool.not_eq_true] at hnot
      obtain ⟨b, hb, hout⟩ := hnot
      exact gap_none hb hout hmiss

/-- What the loader keeps of a plugin. -/
def listed (p : PluginInfo) : MarketplacePlugin := ⟨p.name, p.version, p.url⟩

/-- A plugin that the expression reads as it is. -/
structure Legible (p : PluginInfo) : Prop where
  name : Plain p.name ∧ p.name ≠ []
  version : Plain p.version ∧ p.version ≠ []
  description : p.description.all unbraced = true
  url : Plain p.url ∧ p.url ≠ []

theorem field_own {key : String} (hkey : Plain (text key)) {v : Bytes} (hv : Plain v ∧ v ≠ [])
    (t : Bytes) : field (text key) (0x22 :: (memberTail key v ++ t)) = some (v, t) := by
  rw [field_member hkey, if_pos rfl, value_plain hv.1 hv.2]

theorem plain_of_field {key : String} (hkey : Plain (text key)) {v t r : Bytes}
    (h : field (text key) (0x22 :: (memberTail key v ++ t)) = some (v, r)) : Plain v ∧ v ≠ [] := by
  rw [field_member hkey, if_pos rfl] at h
  exact plain_of_value h

theorem item_legible {p : PluginInfo} (hp : Legible p) (t : Bytes) :
    item (0x22 :: (nameTail p ++ t)) = some (listed p, 0x7d :: t) := by
  rw [nameTail_append]
  refine bind_eq_some.mpr ⟨p.name, _, field_own isKey_name.plain hp.name _, ?_⟩
  rw [gap_name, versionTail_append]
  refine bind_eq_some.mpr ⟨p.version, _, field_own isKey_version.plain hp.version _, ?_⟩
  rw [gap_version, if_pos hp.description, urlTail_append]
  exact bind_eq_some.mpr ⟨p.url, _, field_own isKey_url.plain hp.url _, rfl⟩

theorem itemUrl_some {name version s r : Bytes} {a : MarketplacePlugin}
    (h : itemUrl name version s = some (a, r)) : a.name = name ∧ a.version = version := by
  obtain ⟨url, s', -, hpure⟩ := bind_eq_some.mp h
  obtain ⟨rfl, -⟩ := pure_eq_some.mp hpure
  exact ⟨rfl, rfl⟩

theorem itemVersion_some {name s r : Bytes} {a : MarketplacePlugin}
    (h : itemVersion name s = some (a, r)) : a.name = name := by
  obtain ⟨version, s', -, hgap⟩ := bind_eq_some.mp h
  obtain ⟨u, t, -, ht⟩ := gap_some hgap
  exact (itemUrl_some ht).1

/-- A match that is the plugin itself needs a legible one. -/
theorem legible_of_item {p : PluginInfo} {t r : Bytes}
    (h : item (0x22 :: (nameTail p ++ t)) = some (listed p, r)) : Legible p := by
  rw [nameTail_append] at h
  obtain ⟨name, s, hname, hgap⟩ := bind_eq_some.mp h
  obtain ⟨u, s', -, hlater⟩ := gap_some hgap
  obtain rfl : p.name = name := itemVersion_some hlater
  have hnamePlain := plain_of_field isKey_name.plain hname
  rw [field_own isKey_name.plain hnamePlain] at hname
  obtain rfl := (Prod.mk.inj (Option.some.inj hname)).2
  rw [gap_name, versionTail_append] at hgap
  obtain ⟨version, s, hfield, hgap⟩ := bind_eq_some.mp hgap
  obtain ⟨u, s', -, hlater⟩ := gap_some hgap
  obtain rfl : p.version = version := (itemUrl_some hlater).2
  have hversionPlain := plain_of_field isKey_version.plain hfield
  rw [field_own isKey_version.plain hversionPlain] at hfield
  obtain rfl := (Prod.mk.inj (Option.some.inj hfield)).2
  rw [gap_version, urlTail_append] at hgap
  split at hgap
  · next hdescription =>
      obtain ⟨url, s, hfield, hpure⟩ := bind_eq_some.mp hgap
      obtain ⟨hsame, -⟩ := pure_eq_some.mp hpure
      obtain rfl : url = p.url := congrArg MarketplacePlugin.url hsame
      exact ⟨hnamePlain, hversionPlain, hdescription,
        plain_of_field isKey_url.plain hfield⟩
  · cases hgap

/-! ## The list -/

theorem value_within : Within value :=
  (skip_within _).bind fun _ => (literal_within _).bind fun _ => (skip_within _).bind fun _ =>
    (literal_within _).bind fun _ => (capture_within _).bind fun _ => (literal_within _).bind fun _ =>
      pure_within _

theorem field_within (key : Bytes) : Within (field key) :=
  (literal_within _).bind fun _ => value_within

theorem gaps_within (name : Bytes) : Within (gap unbraced (itemVersion name)) :=
  gap_within ((field_within _).bind fun _ => gap_within ((field_within _).bind fun _ => pure_within _))

theorem item_within : Within item := (field_within _).bind gaps_within

theorem item_productive : Productive item := by
  have hfield : Productive (field (text "name")) :=
    (literal_productive (by simp)).bind fun _ => value_within.consuming
  exact hfield.bind fun name => (gaps_within name).consuming

/-- There is no match without a quote. -/
theorem misses_of_notMem {u : Bytes} (h : 0x22 ∉ u) (t : Bytes) : Misses item u t := by
  induction u with
  | nil => trivial
  | cons c u ih =>
      rw [List.mem_cons, not_or] at h
      refine ⟨?_, ih h.2⟩
      show (field _ _).bind _ = none
      rw [field_of_ne (Ne.symm h.1), Option.bind_none]

theorem misses_item_nameTail (p : PluginInfo) (t : Bytes) : Misses item (nameTail p) t :=
  bind_misses (misses_nameTail p t)

theorem object_append (p : PluginInfo) (t : Bytes) :
    object p ++ t = [0x7b] ++ 0x22 :: (nameTail p ++ t) := by
  rw [object_eq]
  rfl

/-- An object has at most one place where a match begins. -/
theorem hits_object (p : PluginInfo) (t : Bytes) :
    hits item (object p ++ t) ≤ hits item t + 1 := by
  rw [object_append, hits_append (misses_of_notMem (by decide) _), hits,
    hits_append (misses_item_nameTail p t), Nat.add_comm]
  split
  · exact Nat.le_refl _
  · exact Nat.le_succ _

/-- **One object.** With no more matches behind it than plugins to come, it is read as it is exactly
if it is legible. -/
theorem scan_object_iff {p : PluginInfo} {t : Bytes} {later : List MarketplacePlugin}
    (hhits : hits item t ≤ later.length) :
    scan item (object p ++ t) = listed p :: later ↔ Legible p ∧ scan item t = later := by
  have hlegible : Legible p → scan item (object p ++ t) = listed p :: scan item t := by
    intro hp
    have hend : scan item ([0x7d] ++ t) = scan item t := scan_append (misses_of_notMem (by decide) _)
    rw [object_append, scan_append (misses_of_notMem (by decide) _),
      scan_some item_productive (item_legible hp t)]
    exact congrArg (listed p :: ·) hend
  constructor
  · intro h
    have hp : Legible p := by
      rw [object_append, scan_append (misses_of_notMem (by decide) _)] at h
      cases hitem : item (0x22 :: (nameTail p ++ t)) with
      | none =>
          -- then all matches begin behind the object, and there are too few
          have hpass : scan item ([0x22] ++ (nameTail p ++ t)) = scan item (nameTail p ++ t) :=
            scan_append ⟨hitem, trivial⟩
          have hlength := congrArg List.length
            ((hpass.trans (scan_append (misses_item_nameTail p t))).symm.trans h)
          have hle := length_scan_le item_productive item_within t
          rw [List.length_cons] at hlength
          omega
      | some x =>
          obtain ⟨a, r⟩ := x
          rw [scan_some item_productive hitem] at h
          obtain ⟨rfl, -⟩ := List.cons.inj h
          exact legible_of_item hitem
    rw [hlegible hp] at h
    exact ⟨hp, (List.cons.inj h).2⟩
  · rintro ⟨hp, rfl⟩
    exact hlegible hp

theorem hits_of_notMem {u : Bytes} (h : 0x22 ∉ u) : hits item u = 0 := by
  have hnone := hits_append (misses_of_notMem h [])
  rw [List.append_nil] at hnone
  exact hnone

theorem scan_of_notMem {u : Bytes} (h : 0x22 ∉ u) : scan item u = [] := by
  have hnone := scan_append (misses_of_notMem h [])
  rw [List.append_nil] at hnone
  exact hnone

theorem more_append (p : PluginInfo) (ps : List PluginInfo) (t : Bytes) :
    more (p :: ps) ++ t = [0x2c] ++ (object p ++ (more ps ++ t)) := by
  simp [more]

theorem hits_more (ps : List PluginInfo) {t : Bytes} (ht : 0x22 ∉ t) :
    hits item (more ps ++ t) ≤ ps.length := by
  induction ps with
  | nil =>
      have hnone : 0x22 ∉ (0x5d :: t : Bytes) := by simpa using ht
      exact (hits_of_notMem hnone).le
  | cons p ps ih =>
      rw [more_append, hits_append (misses_of_notMem (by decide) _), List.length_cons]
      exact (hits_object p _).trans (Nat.succ_le_succ ih)

theorem scan_more_iff (ps : List PluginInfo) {t : Bytes} (ht : 0x22 ∉ t) :
    scan item (more ps ++ t) = ps.map listed ↔ ∀ p ∈ ps, Legible p := by
  induction ps with
  | nil =>
      have hnone : 0x22 ∉ (0x5d :: t : Bytes) := by simpa using ht
      exact iff_of_true (scan_of_notMem hnone) (by simp)
  | cons p ps ih =>
      rw [more_append, scan_append (misses_of_notMem (by decide) _), List.map_cons,
        scan_object_iff ((hits_more ps ht).trans (List.length_map listed).ge), ih,
        List.forall_mem_cons]

/-- **The list in a text** without other quotes. -/
theorem scan_stringify_iff (ps : List PluginInfo) {s t : Bytes} (hs : 0x22 ∉ s) (ht : 0x22 ∉ t) :
    scan item (s ++ (stringify ps ++ t)) = ps.map listed ↔ ∀ p ∈ ps, Legible p := by
  rw [scan_append (misses_of_notMem hs _)]
  cases ps with
  | nil =>
      have hnone : 0x22 ∉ (0x5b :: 0x5d :: t : Bytes) := by simpa using ht
      exact iff_of_true (scan_of_notMem hnone) (by simp)
  | cons p ps =>
      have htext : stringify (p :: ps) ++ t = [0x5b] ++ (object p ++ (more ps ++ t)) := by
        simp [stringify]
      rw [htext, scan_append (misses_of_notMem (by decide) _), List.map_cons,
        scan_object_iff ((hits_more ps ht).trans (List.length_map listed).ge), scan_more_iff ps ht,
        List.forall_mem_cons]

/-! ## The exchange -/

/-- What the server sends around its list: a head, and what frames the body. -/
structure Answer where
  headers : Bytes
  before : Bytes
  after : Bytes
  no_quote : 0x22 ∉ headers ∧ 0x22 ∉ before ∧ 0x22 ∉ after

def Answer.bytes (a : Answer) (ps : List PluginInfo) : Bytes :=
  reply 200 (a.headers ++ (text "\r\n\r\n" ++ (a.before ++ (stringify ps ++ a.after))))

/-- The head is cut off, or a part of it. -/
theorem body_answer (a : Answer) (ps : List PluginInfo) :
    ∃ s, 0x22 ∉ s ∧ body (a.bytes ps) = s ++ (stringify ps ++ a.after) := by
  obtain ⟨hheaders, hbefore, -⟩ := a.no_quote
  let start : Bytes := statusLine 200 ++ 0x20 :: a.headers
  let list : Bytes := stringify ps ++ a.after
  have htext : a.bytes ps = (start ++ text "\r\n\r\n" ++ a.before) ++ list := by
    simp [Answer.bytes, reply, start, list]
  have hquote : 0x22 ∉ start ++ text "\r\n\r\n" ++ a.before := by
    have hline : 0x22 ∉ statusLine 200 := by decide
    have hend : 0x22 ∉ text "\r\n\r\n" := by decide
    simp only [start, List.mem_append, List.mem_cons, not_or]
    exact ⟨⟨⟨hline, by decide, hheaders⟩, hend⟩, hbefore⟩
  have hstart : find (a.bytes ps) (text "HTTP/1.1") 0 = some 0 :=
    find_start ⟨_, rfl⟩
  have hlong : 0 + 12 ≤ (a.bytes ps).length := by
    show 12 ≤ (statusLine 200 ++ _).length
    rw [List.length_append]
    exact Nat.le_add_right _ _
  have hoccurs : text "\r\n\r\n" <+: (a.bytes ps).drop start.length := by
    rw [htext, List.append_assoc, List.append_assoc, List.drop_left]
    exact List.prefix_append _ _
  have hinside : start.length ≤ (a.bytes ps).length := by
    rw [htext, List.append_assoc, List.append_assoc]
    exact (List.prefix_append start _).length_le
  obtain ⟨e, he, hfound⟩ := findFrom_le hoccurs hinside 0
  have hfind : find (a.bytes ps) (text "\r\n\r\n") 0 = some e := by
    rw [find, if_pos (Nat.zero_le _), List.drop_zero, hfound]
  refine ⟨(start ++ text "\r\n\r\n" ++ a.before).drop (e + 4),
    fun h => hquote (List.mem_of_mem_drop h), ?_⟩
  unfold body
  simp only [hstart, if_pos hlong, hfind]
  rw [htext, List.drop_append_of_le_length]
  simp only [List.length_append]
  have hfour : (text "\r\n\r\n").length = 4 := rfl
  omega

theorem get_from_eq {net : Nat → Attempt} {status : Option Nat} {received : Bytes} {i : Nat}
    (hserved : net i = .exchanged status received) (hok : statusOk received = true)
    {attempts attempt : Nat} (hi : attempt ≤ i) (hlast : i < attempt + attempts)
    (hearlier : ∀ j, attempt ≤ j → j < i → (net j).stops = false) :
    getFrom net attempts attempt = some (body received) := by
  induction attempts generalizing attempt with
  | zero => omega
  | succ attempts ih =>
      rw [getFrom]
      rcases Nat.eq_or_lt_of_le hi with rfl | hlater
      · simp only [hserved, hok, if_true]
      · have hnext := ih hlater (by omega) fun j hj => hearlier j (by omega)
        have hgoes := hearlier attempt (Nat.le_refl _) hlater
        cases hnet : net attempt with
        | noSocket => exact hnext
        | invalidHost =>
            rw [hnet] at hgoes
            cases hgoes
        | refused => exact hnext
        | sendFailed => exact hnext
        | exchanged status' received' =>
            rw [hnet] at hgoes
            have hrefused : statusOk received' = false := hgoes
            simp only [hrefused]
            exact hnext

/-- **The loader finds the list of the server** in the answer to one of its three attempts exactly if
each plugin is legible: its name, version and url are not empty and need no escape in JSON, and there
is no brace in its description. -/
theorem fetch_served_iff (net : Nat → Attempt) (a : Answer) (ps : List PluginInfo) {i : Nat}
    (hi : i < 3) (hearlier : ∀ j < i, (net j).stops = false)
    (hserved : net i = .exchanged (some 200) (a.bytes ps)) :
    fetchAvailablePlugins net = ps.map listed ↔ ∀ p ∈ ps, Legible p := by
  have hok : statusOk (a.bytes ps) = true := by
    rw [Answer.bytes, status_ok_reply (by decide) (List.prefix_refl _)]
    · rfl
    · show 12 ≤ (statusLine 200 ++ _).length
      rw [List.length_append]
      exact Nat.le_add_right _ _
  obtain ⟨s, hs, hbody⟩ := body_answer a ps
  have hget : httpGet net = some (s ++ (stringify ps ++ a.after)) := by
    rw [← hbody]
    exact get_from_eq hserved hok (Nat.zero_le _) (by omega) fun j _ hj => hearlier j hj
  rw [fetchAvailablePlugins, hget]
  exact scan_stringify_iff ps hs a.no_quote.2.2

/-- A description with quotes, and an answer in one chunk. -/
def samplePlugin : PluginInfo := ⟨text "p", text "0.1.0", text "a \"b\"", text "u"⟩

def sampleAnswer : Answer where
  headers := text " OK\r\nContent-Type: application/json"
  before := text "3f\r\n"
  after := text "\r\n0\r\n\r\n"
  no_quote := ⟨by decide, by decide, by decide⟩

/-- The first attempt is refused. -/
theorem fetch_served_sample :
    fetchAvailablePlugins (fun j => if j = 0 then .refused
      else .exchanged (some 200) (sampleAnswer.bytes [samplePlugin])) =
      [⟨text "p", text "0.1.0", text "u"⟩] := by
  have hplain : ∀ p ∈ [samplePlugin], Legible p := by
    intro p hp
    obtain rfl := List.mem_singleton.mp hp
    exact ⟨by decide, by decide, by decide, by decide⟩
  refine (fetch_served_iff _ sampleAnswer [samplePlugin] (i := 1) (by decide) ?_ rfl).mpr hplain
  intro j hj
  obtain rfl : j = 0 := Nat.lt_one_iff.mp hj
  rfl

end ChainBeasts.Client.PluginCatalogue
