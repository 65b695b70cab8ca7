import Ghexbench.Common.Pairing

/-!
# Message matching

The matching rules of a message-passing library. A message is in flight until it is delivered;
it is then matched with the oldest posted receive that has the same key, or kept as unexpected.
A receive is matched with the oldest unexpected message that has its key, or posted. Messages of
one sender with one key are delivered in the order in which they were sent, all other messages in
any order.

Messages and receives are classified into streams. Each stream has one sender and one key. As
long as no two streams of the same key have unmatched operations at the same time, the `i`-th
receive of each stream is matched with the `i`-th message of that stream.
-/

namespace Ghexbench.Common

variable {M N K S Str : Type*}

/-- The keys that messages and receives are matched by, and the senders of messages. -/
structure Labels (M N K S : Type*) where
  sendKey : M → K
  recvKey : N → K
  sender : M → S

/-- The messages in flight and the unexpected ones, the posted receives, all in order, and the
matches so far. -/
structure Network (M N : Type*) where
  inFlight : List M
  unexpected : List M
  posted : List N
  matched : List (N × M)
  deriving DecidableEq, Repr

/-- The network before any operation. -/
def Network.empty : Network M N := ⟨[], [], [], []⟩

namespace Network

/-- Send a message. -/
def postSend (net : Network M N) (m : M) : Network M N := { net with inFlight := net.inFlight ++ [m] }

variable [DecidableEq K] (labels : Labels M N K S)

/-- Start a receive. -/
def postRecv (net : Network M N) (r : N) : Network M N :=
  match takeFirst (fun m => labels.sendKey m = labels.recvKey r) net.unexpected with
  | some (m, rest) => { net with unexpected := rest, matched := net.matched ++ [(r, m)] }
  | none => { net with posted := net.posted ++ [r] }

/-- Take a delivered message in. -/
def arrive (net : Network M N) (m : M) : Network M N :=
  match takeFirst (fun r => labels.recvKey r = labels.sendKey m) net.posted with
  | some (r, rest) => { net with posted := rest, matched := net.matched ++ [(r, m)] }
  | none => { net with unexpected := net.unexpected ++ [m] }

/-- Deliver the oldest message of a sender with a key that is in flight. -/
def deliver [DecidableEq S] (net : Network M N) (sender : S) (key : K) : Option (Network M N) :=
  (takeFirst (fun m => labels.sender m = sender ∧ labels.sendKey m = key) net.inFlight).map
    fun q => arrive labels { net with inFlight := q.2 } q.1

end Network

/-- A classification of the operations into streams, each with its sender and its key. -/
structure Streams (labels : Labels M N K S) (Str : Type*) where
  ofSend : M → Str
  ofRecv : N → Str
  key : Str → K
  sender : Str → S
  sendKey_eq : ∀ m, labels.sendKey m = key (ofSend m)
  recvKey_eq : ∀ r, labels.recvKey r = key (ofRecv r)
  sender_eq : ∀ m, labels.sender m = sender (ofSend m)

variable {labels : Labels M N K S} (streams : Streams labels Str)

/-- Operations of one stream have equal keys. -/
theorem Streams.keys_eq {m : M} {r : N} (h : streams.ofSend m = streams.ofRecv r) :
    labels.sendKey m = labels.recvKey r := by
  rw [streams.sendKey_eq, streams.recvKey_eq, h]

/-- The streams that have unmatched operations. -/
def Network.unmatched (net : Network M N) : List Str :=
  (net.unexpected ++ net.inFlight).map streams.ofSend ++ net.posted.map streams.ofRecv

/-- No other stream with the key of a given stream has unmatched operations. -/
def Network.Clear (net : Network M N) (σ : Str) : Prop :=
  ∀ τ ∈ net.unmatched streams, streams.key τ = streams.key σ → τ = σ

section InOrder

variable [DecidableEq Str]

/-- The messages of a stream. -/
def Streams.sends (σ : Str) (l : List M) : List M := l.filter fun m => streams.ofSend m = σ

/-- The receives of a stream. -/
def Streams.recvs (σ : Str) (l : List N) : List N := l.filter fun r => streams.ofRecv r = σ

/-- The matches of a stream. -/
def Streams.pairs (σ : Str) (l : List (N × M)) : List (N × M) :=
  l.filter fun p => streams.ofRecv p.1 = σ

/-- After the given sends and receives every stream has been matched in order, no stream has both
unexpected messages and posted receives, and streams with unmatched operations have different
keys. -/
structure Network.InOrder (net : Network M N) (sent : List M) (received : List N) : Prop where
  paired : ∀ σ, Paired (streams.sends σ sent) (streams.recvs σ received)
    (streams.sends σ net.unexpected ++ streams.sends σ net.inFlight)
    (streams.recvs σ net.posted) (streams.pairs σ net.matched)
  exclusive : ∀ σ, streams.sends σ net.unexpected = [] ∨ streams.recvs σ net.posted = []
  separate : ∀ σ ∈ net.unmatched streams, ∀ τ ∈ net.unmatched streams,
    streams.key σ = streams.key τ → σ = τ

namespace Streams

variable {streams} {σ : Str}

/-- One more message of the stream. -/
theorem sends_append_self {m : M} (l : List M) (h : streams.ofSend m = σ) :
    streams.sends σ (l ++ [m]) = streams.sends σ l ++ [m] := by simp [sends, h]

/-- One more message of another stream. -/
theorem sends_append_other {m : M} (l : List M) (h : streams.ofSend m ≠ σ) :
    streams.sends σ (l ++ [m]) = streams.sends σ l := by simp [sends, h]

/-- One more receive of the stream. -/
theorem recvs_append_self {r : N} (l : List N) (h : streams.ofRecv r = σ) :
    streams.recvs σ (l ++ [r]) = streams.recvs σ l ++ [r] := by simp [recvs, h]

/-- One more receive of another stream. -/
theorem recvs_append_other {r : N} (l : List N) (h : streams.ofRecv r ≠ σ) :
    streams.recvs σ (l ++ [r]) = streams.recvs σ l := by simp [recvs, h]

/-- One more match of the stream. -/
theorem pairs_append_self {r : N} (m : M) (l : List (N × M)) (h : streams.ofRecv r = σ) :
    streams.pairs σ (l ++ [(r, m)]) = streams.pairs σ l ++ [(r, m)] := by simp [pairs, h]

/-- One more match of another stream. -/
theorem pairs_append_other {r : N} (m : M) (l : List (N × M)) (h : streams.ofRecv r ≠ σ) :
    streams.pairs σ (l ++ [(r, m)]) = streams.pairs σ l := by simp [pairs, h]

end Streams

namespace Network.InOrder

variable {streams} {net net' : Network M N} {sent : List M} {received : List N} {m : M} {r : N}

/-- The empty network. -/
theorem empty : InOrder streams (Network.empty : Network M N) [] [] where
  paired _ := Paired.nil
  exclusive _ := Or.inl rfl
  separate σ hσ := absurd hσ (by simp [Network.empty, unmatched])

/-- Operations of one stream are added where no other stream with its key is unmatched. -/
theorem separate_add (h : InOrder streams net sent received) {σ : Str} (hclear : net.Clear streams σ)
    (hsub : ∀ τ ∈ net'.unmatched streams, τ ∈ net.unmatched streams ∨ τ = σ) :
    ∀ τ ∈ net'.unmatched streams, ∀ ρ ∈ net'.unmatched streams,
      streams.key τ = streams.key ρ → τ = ρ := by
  intro τ hτ ρ hρ hkey
  rcases hsub τ hτ with hτ | rfl <;> rcases hsub ρ hρ with hρ | rfl
  · exact h.separate τ hτ ρ hρ hkey
  · exact hclear τ hτ hkey
  · exact (hclear ρ hρ hkey.symm).symm
  · rfl

/-- No stream becomes unmatched. -/
theorem separate_mono (h : InOrder streams net sent received)
    (hsub : ∀ τ ∈ net'.unmatched streams, τ ∈ net.unmatched streams) :
    ∀ τ ∈ net'.unmatched streams, ∀ ρ ∈ net'.unmatched streams,
      streams.key τ = streams.key ρ → τ = ρ :=
  fun τ hτ ρ hρ => h.separate τ (hsub τ hτ) ρ (hsub ρ hρ)

/-- Sending keeps the order. -/
theorem postSend (h : InOrder streams net sent received)
    (hclear : net.Clear streams (streams.ofSend m)) :
    InOrder streams (net.postSend m) (sent ++ [m]) received where
  paired σ := by
    have hpaired := h.paired σ
    change Paired _ _ (_ ++ streams.sends σ (net.inFlight ++ [m])) _ _
    by_cases hσ : streams.ofSend m = σ
    · rw [Streams.sends_append_self _ hσ, Streams.sends_append_self _ hσ, ← List.append_assoc]
      exact hpaired.send m
    · rw [Streams.sends_append_other _ hσ, Streams.sends_append_other _ hσ]
      exact hpaired
  exclusive := h.exclusive
  separate := by
    apply h.separate_add hclear
    intro τ hτ
    simp only [unmatched, Network.postSend, List.map_append, List.mem_append, List.map_cons,
      List.map_nil, List.mem_singleton] at hτ ⊢
    tauto

variable [DecidableEq K]

/-- A receive takes the oldest unexpected message of its stream. -/
theorem takeUnexpected {rest : List M} (h : InOrder streams net sent received)
    (hclear : net.Clear streams (streams.ofRecv r))
    (hfirst : takeFirst (fun m => labels.sendKey m = labels.recvKey r) net.unexpected =
      some (m, rest)) :
    InOrder streams { net with unexpected := rest, matched := net.matched ++ [(r, m)] } sent
      (received ++ [r]) := by
  obtain ⟨hmem, hkey, hrest⟩ := takeFirst_mem hfirst
  have hkey' := of_decide_eq_true hkey
  have hstream : streams.ofSend m = streams.ofRecv r := by
    apply hclear
    · simp only [unmatched, List.map_append, List.mem_append]
      exact Or.inl (Or.inl (List.mem_map_of_mem hmem))
    · rw [← streams.sendKey_eq, ← streams.recvKey_eq, hkey']
  have hsame : streams.sends (streams.ofRecv r) net.unexpected =
      m :: streams.sends (streams.ofRecv r) rest := by
    apply takeFirst_filter_self hfirst _ (decide_eq_true hstream)
    intro x _ hx
    rw [decide_eq_true_eq] at hx ⊢
    exact streams.keys_eq hx
  have hpaired (σ : Str) : Paired (streams.sends σ sent) (streams.recvs σ (received ++ [r]))
      (streams.sends σ rest ++ streams.sends σ net.inFlight) (streams.recvs σ net.posted)
      (streams.pairs σ (net.matched ++ [(r, m)])) := by
    by_cases hσ : streams.ofRecv r = σ
    · subst hσ
      have hpaired := h.paired (streams.ofRecv r)
      have hposted : streams.recvs (streams.ofRecv r) net.posted = [] :=
        (h.exclusive _).resolve_left (by rw [hsame]; exact List.cons_ne_nil _ _)
      rw [hsame, hposted] at hpaired
      rw [Streams.recvs_append_self _ rfl, Streams.pairs_append_self m _ rfl, hposted]
      exact (hpaired.receive r).pair
    · have hother : streams.sends σ net.unexpected = streams.sends σ rest :=
        takeFirst_filter_other hfirst (decide_eq_false (hstream ▸ hσ))
      rw [Streams.recvs_append_other _ hσ, Streams.pairs_append_other m _ hσ, ← hother]
      exact h.paired σ
  refine ⟨hpaired, fun σ => (h.exclusive σ).imp_left (takeFirst_filter_nil hfirst), ?_⟩
  apply h.separate_mono
  intro τ hτ
  simp only [unmatched, List.map_append, List.mem_append, List.mem_map] at hτ ⊢
  rcases hτ with (⟨x, hx, rfl⟩ | hτ) | hτ
  · exact Or.inl (Or.inl ⟨x, hrest x hx, rfl⟩)
  · exact Or.inl (Or.inr hτ)
  · exact Or.inr hτ

/-- A receive is posted when there is no unexpected message of its stream. -/
theorem waitPosted (h : InOrder streams net sent received)
    (hclear : net.Clear streams (streams.ofRecv r))
    (hnone : takeFirst (fun m => labels.sendKey m = labels.recvKey r) net.unexpected = none) :
    InOrder streams { net with posted := net.posted ++ [r] } sent (received ++ [r]) := by
  have hfree : streams.sends (streams.ofRecv r) net.unexpected = [] := by
    apply takeFirst_filter_none hnone
    intro x _ hx
    rw [decide_eq_true_eq] at hx ⊢
    exact streams.keys_eq hx
  refine ⟨?_, ?_, ?_⟩
  · intro σ
    change Paired _ _ _ (streams.recvs σ (net.posted ++ [r])) _
    by_cases hσ : streams.ofRecv r = σ
    · rw [Streams.recvs_append_self _ hσ, Streams.recvs_append_self _ hσ]
      exact (h.paired σ).receive r
    · rw [Streams.recvs_append_other _ hσ, Streams.recvs_append_other _ hσ]
      exact h.paired σ
  · intro σ
    change _ ∨ streams.recvs σ (net.posted ++ [r]) = []
    by_cases hσ : streams.ofRecv r = σ
    · exact Or.inl (hσ ▸ hfree)
    · rw [Streams.recvs_append_other _ hσ]
      exact h.exclusive σ
  · apply h.separate_add hclear
    intro τ hτ
    simp only [unmatched, List.map_append, List.mem_append, List.map_cons, List.map_nil,
      List.mem_singleton] at hτ ⊢
    tauto

/-- Starting a receive keeps the order. -/
theorem postRecv (h : InOrder streams net sent received)
    (hclear : net.Clear streams (streams.ofRecv r)) :
    InOrder streams (net.postRecv labels r) sent (received ++ [r]) := by
  unfold Network.postRecv
  split
  · next hfirst => exact h.takeUnexpected hclear hfirst
  · next hnone => exact h.waitPosted hclear hnone

section Arrival

variable {rest : List M} {others : List N}

/-- The message `m` has left the flight, and takes the oldest posted receive of its stream. -/
theorem takePosted (h : InOrder streams net sent received)
    (hsame : streams.sends (streams.ofSend m) net.inFlight =
      m :: streams.sends (streams.ofSend m) rest)
    (hother : ∀ σ, streams.ofSend m ≠ σ → streams.sends σ net.inFlight = streams.sends σ rest)
    (hmem : m ∈ net.inFlight) (hrest : ∀ x ∈ rest, x ∈ net.inFlight)
    (hfirst : takeFirst (fun r => labels.recvKey r = labels.sendKey m) net.posted =
      some (r, others)) :
    InOrder streams
      { net with inFlight := rest, posted := others, matched := net.matched ++ [(r, m)] }
      sent received := by
  obtain ⟨hposted, hkey, hothers⟩ := takeFirst_mem hfirst
  have hkey' := of_decide_eq_true hkey
  have hstream : streams.ofRecv r = streams.ofSend m := by
    apply h.separate
    · simp only [unmatched, List.mem_append]
      exact Or.inr (List.mem_map_of_mem hposted)
    · simp only [unmatched, List.map_append, List.mem_append]
      exact Or.inl (Or.inr (List.mem_map_of_mem hmem))
    · rw [← streams.sendKey_eq, ← streams.recvKey_eq, hkey']
  have hrecvs : streams.recvs (streams.ofSend m) net.posted =
      r :: streams.recvs (streams.ofSend m) others := by
    apply takeFirst_filter_self hfirst _ (decide_eq_true hstream)
    intro x _ hx
    rw [decide_eq_true_eq] at hx ⊢
    exact (streams.keys_eq hx.symm).symm
  have hpaired (σ : Str) : Paired (streams.sends σ sent) (streams.recvs σ received)
      (streams.sends σ net.unexpected ++ streams.sends σ rest) (streams.recvs σ others)
      (streams.pairs σ (net.matched ++ [(r, m)])) := by
    by_cases hσ : streams.ofSend m = σ
    · subst hσ
      have hpaired := h.paired (streams.ofSend m)
      have hunexpected : streams.sends (streams.ofSend m) net.unexpected = [] :=
        (h.exclusive _).resolve_right (by rw [hrecvs]; exact List.cons_ne_nil _ _)
      rw [hunexpected, hsame, hrecvs] at hpaired
      rw [hunexpected, Streams.pairs_append_self m _ hstream]
      exact hpaired.pair
    · have hnotin : streams.recvs σ net.posted = streams.recvs σ others :=
        takeFirst_filter_other hfirst (decide_eq_false (hstream ▸ hσ))
      rw [Streams.pairs_append_other m _ (hstream ▸ hσ), ← hother σ hσ, ← hnotin]
      exact h.paired σ
  refine ⟨hpaired, fun σ => (h.exclusive σ).imp_right (takeFirst_filter_nil hfirst), ?_⟩
  apply h.separate_mono
  intro τ hτ
  simp only [unmatched, List.map_append, List.mem_append, List.mem_map] at hτ ⊢
  rcases hτ with (hτ | ⟨x, hx, rfl⟩) | ⟨x, hx, rfl⟩
  · exact Or.inl (Or.inl hτ)
  · exact Or.inl (Or.inr ⟨x, hrest x hx, rfl⟩)
  · exact Or.inr ⟨x, hothers x hx, rfl⟩

/-- The message `m` has left the flight, and is kept when no receive of its stream is posted. -/
theorem waitUnexpected (h : InOrder streams net sent received)
    (hsame : streams.sends (streams.ofSend m) net.inFlight =
      m :: streams.sends (streams.ofSend m) rest)
    (hother : ∀ σ, streams.ofSend m ≠ σ → streams.sends σ net.inFlight = streams.sends σ rest)
    (hmem : m ∈ net.inFlight) (hrest : ∀ x ∈ rest, x ∈ net.inFlight)
    (hnone : takeFirst (fun r => labels.recvKey r = labels.sendKey m) net.posted = none) :
    InOrder streams { net with inFlight := rest, unexpected := net.unexpected ++ [m] }
      sent received := by
  have hfree : streams.recvs (streams.ofSend m) net.posted = [] := by
    apply takeFirst_filter_none hnone
    intro x _ hx
    rw [decide_eq_true_eq] at hx ⊢
    exact (streams.keys_eq hx.symm).symm
  refine ⟨?_, ?_, ?_⟩
  · intro σ
    change Paired _ _ (streams.sends σ (net.unexpected ++ [m]) ++ streams.sends σ rest) _ _
    by_cases hσ : streams.ofSend m = σ
    · subst hσ
      have hpaired := h.paired (streams.ofSend m)
      rw [hsame] at hpaired
      rw [Streams.sends_append_self _ rfl, List.append_assoc]
      exact hpaired
    · rw [Streams.sends_append_other _ hσ, ← hother σ hσ]
      exact h.paired σ
  · intro σ
    change streams.sends σ (net.unexpected ++ [m]) = [] ∨ _
    by_cases hσ : streams.ofSend m = σ
    · exact Or.inr (hσ ▸ hfree)
    · rw [Streams.sends_append_other _ hσ]
      exact h.exclusive σ
  · apply h.separate_mono
    intro τ hτ
    simp only [unmatched, List.map_append, List.mem_append, List.mem_map, List.mem_singleton,
      exists_eq_left] at hτ ⊢
    rcases hτ with ((hτ | rfl) | ⟨x, hx, rfl⟩) | hτ
    · exact Or.inl (Or.inl hτ)
    · exact Or.inl (Or.inr ⟨m, hmem, rfl⟩)
    · exact Or.inl (Or.inr ⟨x, hrest x hx, rfl⟩)
    · exact Or.inr hτ

/-- The message `m` has left the flight; until it is taken in it is the next one of its stream. -/
theorem arrive (h : InOrder streams net sent received)
    (hsame : streams.sends (streams.ofSend m) net.inFlight =
      m :: streams.sends (streams.ofSend m) rest)
    (hother : ∀ σ, streams.ofSend m ≠ σ → streams.sends σ net.inFlight = streams.sends σ rest)
    (hmem : m ∈ net.inFlight) (hrest : ∀ x ∈ rest, x ∈ net.inFlight) :
    InOrder streams (Network.arrive labels { net with inFlight := rest } m) sent received := by
  unfold Network.arrive
  split
  · next hfirst => exact h.takePosted hsame hother hmem hrest hfirst
  · next hnone => exact h.waitUnexpected hsame hother hmem hrest hnone

end Arrival

/-- Delivering a message keeps the order. -/
theorem deliver [DecidableEq S] {sender : S} {key : K} (h : InOrder streams net sent received)
    (hdeliver : net.deliver labels sender key = some net') : InOrder streams net' sent received := by
  obtain ⟨⟨m, rest⟩, hfirst, rfl⟩ := Option.map_eq_some_iff.mp hdeliver
  obtain ⟨hmem, hlabels, hrest⟩ := takeFirst_mem hfirst
  obtain ⟨hsender, hkey⟩ := of_decide_eq_true hlabels
  apply h.arrive _ _ hmem hrest
  · apply takeFirst_filter_self hfirst _ (decide_eq_true rfl)
    intro x _ hx
    rw [decide_eq_true_eq] at hx ⊢
    rw [← hsender, ← hkey, streams.sender_eq, streams.sendKey_eq, streams.sender_eq,
      streams.sendKey_eq, hx]
    exact ⟨rfl, rfl⟩
  · intro σ hσ
    exact takeFirst_filter_other hfirst (decide_eq_false hσ)

omit [DecidableEq K] in
/-- Unmatched operations have been posted. -/
theorem unmatched_mem (h : InOrder streams net sent received) {τ : Str}
    (hτ : τ ∈ net.unmatched streams) :
    (∃ m ∈ sent, streams.ofSend m = τ) ∨ ∃ r ∈ received, streams.ofRecv r = τ := by
  obtain ⟨sentDone, receivedDone, _, hsent, hreceived, _⟩ := h.paired τ
  simp only [unmatched, List.mem_append, List.mem_map] at hτ
  rcases hτ with ⟨m, hm, rfl⟩ | ⟨r, hr, rfl⟩
  · left
    have hmem : m ∈ streams.sends (streams.ofSend m) sent := by
      rw [hsent, Streams.sends, Streams.sends, ← List.filter_append]
      exact List.mem_append_right _ (List.mem_filter.mpr ⟨List.mem_append.mpr hm, decide_eq_true rfl⟩)
    exact ⟨m, (List.mem_filter.mp hmem).1, rfl⟩
  · right
    have hmem : r ∈ streams.recvs (streams.ofRecv r) received := by
      rw [hreceived]
      exact List.mem_append_right _ (List.mem_filter.mpr ⟨hr, decide_eq_true rfl⟩)
    exact ⟨r, (List.mem_filter.mp hmem).1, rfl⟩

end Network.InOrder

end InOrder

/-- A message in flight can be delivered. -/
theorem Network.deliver_isSome [DecidableEq K] [DecidableEq S] (labels : Labels M N K S)
    {net : Network M N} {m : M} (hm : m ∈ net.inFlight) :
    ∃ net', net.deliver labels (labels.sender m) (labels.sendKey m) = some net' := by
  unfold Network.deliver
  cases hfirst : takeFirst (fun x => labels.sender x = labels.sender m ∧
      labels.sendKey x = labels.sendKey m) net.inFlight with
  | none => simpa using takeFirst_eq_none hfirst m hm
  | some q => exact ⟨_, rfl⟩

namespace Network

variable [DecidableEq K] {net net' : Network M N}

/-- Matches are final. -/
theorem matched_postRecv (r : N) : net.matched ⊆ (net.postRecv labels r).matched := by
  unfold postRecv
  split
  · exact List.subset_append_left _ _
  · exact List.Subset.refl _

/-- Matches are final. -/
theorem matched_arrive (net : Network M N) (m : M) :
    net.matched ⊆ (net.arrive labels m).matched := by
  unfold arrive
  split
  · exact List.subset_append_left _ _
  · exact List.Subset.refl _

/-- Matches are final. -/
theorem matched_deliver [DecidableEq S] {sender : S} {key : K}
    (h : net.deliver labels sender key = some net') : net.matched ⊆ net'.matched := by
  obtain ⟨⟨m, rest⟩, _, rfl⟩ := Option.map_eq_some_iff.mp h
  exact matched_arrive { net with inFlight := rest } m

/-- The number of messages. -/
def size (net : Network M N) : ℕ := net.inFlight.length + net.unexpected.length + net.matched.length

/-- How far the messages have come. -/
def settled (net : Network M N) : ℕ := net.unexpected.length + 2 * net.matched.length

omit [DecidableEq K] in
/-- Sending adds a message. -/
theorem size_postSend (net : Network M N) (m : M) : (net.postSend m).size = net.size + 1 := by
  simp only [size, postSend, List.length_append, List.length_singleton]
  omega

/-- Starting a receive adds no message, and none goes back. -/
theorem size_postRecv (labels : Labels M N K S) (net : Network M N) (r : N) :
    (net.postRecv labels r).size = net.size ∧ net.settled ≤ (net.postRecv labels r).settled := by
  unfold postRecv
  split
  · next hfirst =>
    have hlength := takeFirst_length hfirst
    simp only [size, settled, List.length_append, List.length_singleton]
    omega
  · exact ⟨rfl, le_rfl⟩

/-- Delivering a message brings it forward. -/
theorem size_deliver [DecidableEq S] {sender : S} {key : K}
    (h : net.deliver labels sender key = some net') :
    net'.size = net.size ∧ net.settled < net'.settled := by
  obtain ⟨⟨m, rest⟩, hfirst, rfl⟩ := Option.map_eq_some_iff.mp h
  have hlength := takeFirst_length hfirst
  unfold arrive
  split
  · simp only [size, settled, List.length_append, List.length_singleton]
    omega
  · simp only [size, settled, List.length_append, List.length_singleton]
    omega

end Network

end Ghexbench.Common
