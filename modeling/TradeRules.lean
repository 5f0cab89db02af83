import TradeRules.Main
import TradeRules.Proofs.Double.Rounding
import TradeRules.Rule.Family
import TradeRules.Proofs.Double.Unpacked
import TradeRules.Proofs.Breeding.Cross
import TradeRules.Proofs.Double.Quotient
import TradeRules.Proofs.Market.Source
import TradeRules.Proofs.Rule.Evaluate
import TradeRules.Proofs.Rule.Meaning
import TradeRules.Proofs.Trading.Ledger
import TradeRules.Proofs.Trading.Run
import TradeRules.Proofs.Breeding.Names
import TradeRules.Proofs.Breeding.Programme
import TradeRules.Proofs.Breeding.RoundTrip
import TradeRules.Proofs.Breeding.Competition
import TradeRules.Proofs.Breeding.Population
import TradeRules.Proofs.Trading.LookBack
import TradeRules.Proofs.Rule.Language
import TradeRules.Proofs.Market.Records
import TradeRules.Proofs.Rule.Failure
import TradeRules.Proofs.Rule.Constant
import TradeRules.Proofs.Breeding.QuoteFilter
import TradeRules.Proofs.Trading.Solvency
import TradeRules.Proofs.Rule.Checking
import TradeRules.Proofs.Rule.Exchange
import TradeRules.Proofs.Double.Zeros
import TradeRules.Proofs.Rule.EqualValues
import TradeRules.Proofs.Rule.EqualForms
import TradeRules.Proofs.Breeding.Depth
import TradeRules.Proofs.Rule.Unusable
import TradeRules.Proofs.Trading.Valuation
import TradeRules.Proofs.Trading.Overflow
import TradeRules.Proofs.Breeding.Attempts
import TradeRules.Proofs.Breeding.Selection
import TradeRules.Proofs.Breeding.Locality
import TradeRules.Proofs.Breeding.Rounds
import TradeRules.Proofs.Market.Windows
import TradeRules.Proofs.Rule.SingleDay
import TradeRules.Proofs.Breeding.Offers
import TradeRules.Proofs.Breeding.UnknownNames
import TradeRules.Proofs.Market.Calendar
import TradeRules.Proofs.Rule.Respacing
import TradeRules.Proofs.Rule.Strength
import TradeRules.Proofs.CommandLine.Evaluation
