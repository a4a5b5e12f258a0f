import OrderBookServer.NodeData
import OrderBookServer.JsonText

/-!
# Subscriptions

What a client may ask for, which subscriptions are accepted for a universe of coins,
and the set of those a connection holds.
-/
namespace OrderBookServer

def maxLevels : ℕ := 100
def maxSubscriptions : ℕ := 2048
def defaultLevels : ℕ := 20

inductive Subscription where
  | trades (coin : String)
  | l2Book (coin : String) (nSigFigs nLevels mantissa : Option ℕ)
  | l4Book (coin : String)
  deriving DecidableEq, Repr

namespace Subscription

def coin : Subscription → String
  | trades coin => coin
  | l2Book coin _ _ _ => coin
  | l4Book coin => coin

/-- A mantissa is only for five figures. -/
def validPrecision (nSigFigs mantissa : Option ℕ) : Bool :=
  match nSigFigs with
  | some n =>
    if ¬ (2 ≤ n ∧ n ≤ 5) then false
    else mantissa.all fun m => !(decide (n < 5) || (m != 5 && m != 2))
  | none => mantissa.isNone

theorem validPrecision_some {n : ℕ} {mantissa : Option ℕ}
    (h : validPrecision (some n) mantissa = true) :
    2 ≤ n ∧ n ≤ 5 ∧ (mantissa = none ∨ n = 5 ∧ (mantissa = some 2 ∨ mantissa = some 5)) := by
  simp only [validPrecision] at h
  split_ifs at h with hrange
  refine ⟨hrange.1, hrange.2, ?_⟩
  cases mantissa with
  | none => exact .inl rfl
  | some m =>
    right
    simp only [Option.all_some, Bool.not_eq_true', Bool.or_eq_false_iff, decide_eq_false_iff_not,
      Bool.and_eq_false_iff, bne_eq_false_iff_eq] at h
    simp only [Option.some.injEq]
    omega

def validate (self : Subscription) (coins : Finset String) : Bool :=
  if self.coin.utf8ByteSize > 64 then false
  else
    match self with
    | trades coin => decide (coin ∈ coins) || isHip4Coin coin
    | l2Book coin nSigFigs nLevels mantissa =>
      if coin ∉ coins ∧ isHip4Coin coin = false then false
      else if nLevels = some defaultLevels then false
      else if nLevels.getD defaultLevels = 0 ∨ nLevels.getD defaultLevels > maxLevels then false
      else validPrecision nSigFigs mantissa
    | l4Book coin => decide (coin ∈ coins) && coin.toList.head? != some '@'

/-- Apart from outcome coins, nothing outside the universe is accepted. -/
theorem mem_of_validate {self : Subscription} {coins : Finset String}
    (h : self.validate coins = true) (hcoin : isHip4Coin self.coin = false) : self.coin ∈ coins := by
  unfold validate at h
  split_ifs at h
  cases self with
  | trades coin => simpa [Subscription.coin, show isHip4Coin coin = false from hcoin] using h
  | l2Book coin nSigFigs nLevels mantissa =>
    by_contra hnot
    have hout : coin ∉ coins ∧ isHip4Coin coin = false := ⟨hnot, hcoin⟩
    simp [hout] at h
  | l4Book coin =>
    rw [Bool.and_eq_true, decide_eq_true_eq] at h
    exact h.1

/-- The tag of a subscription in JSON. -/
def kind : Subscription → String
  | trades _ => "trades"
  | l2Book .. => "l2Book"
  | l4Book _ => "l4Book"

/-- What follows the coin. -/
def parameters : Subscription → List Char
  | l2Book _ nSigFigs nLevels mantissa =>
    ',' :: JsonText.field "nSigFigs" (JsonText.nullable nSigFigs)
      (',' :: JsonText.field "nLevels" (JsonText.nullable nLevels)
        (',' :: JsonText.field "mantissa" (JsonText.nullable mantissa) ['\x7d']))
  | _ => ['\x7d']

/-- `serde_json::to_string` of a subscription. -/
def toJson (self : Subscription) : String :=
  String.ofList ('\x7b' :: JsonText.field "type" (JsonText.string self.kind)
    (',' :: JsonText.field "coin" (JsonText.string self.coin) self.parameters))

/-- Subscriptions that differ are written differently. -/
theorem toJson_injective : Function.Injective toJson := by
  intro a b h
  have htext := JsonText.field_inj (List.tail_eq_of_cons_eq (String.ofList_injective h))
  obtain ⟨hkind, htext⟩ := JsonText.string_append_inj htext
  have htext := JsonText.field_inj (List.tail_eq_of_cons_eq htext)
  obtain ⟨hcoin, htext⟩ := JsonText.string_append_inj htext
  cases a with
  | trades coin => cases b <;> simp_all [kind, Subscription.coin]
  | l4Book coin => cases b <;> simp_all [kind, Subscription.coin]
  | l2Book coin nSigFigs nLevels mantissa =>
    cases b with
    | trades coin' => simp [kind] at hkind
    | l4Book coin' => simp [kind] at hkind
    | l2Book coin' nSigFigs' nLevels' mantissa' =>
      obtain rfl : coin = coin' := hcoin
      have htext := JsonText.field_inj (List.tail_eq_of_cons_eq htext)
      obtain ⟨hfigs, hlevels⟩ := JsonText.nullable_append_inj (by decide) (by decide) htext
      have hlevels := JsonText.field_inj (List.tail_eq_of_cons_eq hlevels)
      obtain ⟨hn, hmantissa⟩ := JsonText.nullable_append_inj (by decide) (by decide) hlevels
      have hmantissa := JsonText.field_inj (List.tail_eq_of_cons_eq hmantissa)
      obtain ⟨hm, -⟩ := JsonText.nullable_append_inj (by decide) (by decide) hmantissa
      rw [hfigs, hn, hm]

example : toJson (.l2Book "BTC" none (some 5) none) =
    "\x7b\"type\":\"l2Book\",\"coin\":\"BTC\",\"nSigFigs\":null,\"nLevels\":5,\"mantissa\":null\x7d" :=
  by decide

end Subscription

inductive ClientMessage where
  | subscribe (subscription : Subscription)
  | unsubscribe (subscription : Subscription)
  deriving DecidableEq, Repr

structure SubscriptionManager where
  subscriptions : Finset Subscription

namespace SubscriptionManager

def subscribe (self : SubscriptionManager) (sub : Subscription) : Bool × SubscriptionManager :=
  if self.subscriptions.card ≥ maxSubscriptions ∧ sub ∉ self.subscriptions then (false, self)
  else (decide (sub ∉ self.subscriptions), ⟨insert sub self.subscriptions⟩)

def unsubscribe (self : SubscriptionManager) (sub : Subscription) : Bool × SubscriptionManager :=
  (decide (sub ∈ self.subscriptions), ⟨self.subscriptions.erase sub⟩)

end SubscriptionManager
end OrderBookServer
