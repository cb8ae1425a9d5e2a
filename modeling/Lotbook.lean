import Lotbook.Json.Event
import Lotbook.Json.Settings
import Lotbook.Proofs.Runs
import Lotbook.Proofs.Reports
import Lotbook.Proofs.Exactness
import Lotbook.Proofs.Tallies
import Lotbook.Proofs.BalanceCounts
import Lotbook.Proofs.PositionCounts
import Lotbook.Proofs.Conservation
import Lotbook.Proofs.Summaries
import Lotbook.Proofs.Strays
import Lotbook.Proofs.Grids
import Lotbook.Proofs.Scales
import Lotbook.Proofs.Capacity
import Lotbook.Proofs.Overselling
import Lotbook.Proofs.Frames
import Lotbook.Proofs.Transfers
import Lotbook.Proofs.LotsFollow
import Lotbook.Proofs.Components
import Lotbook.Proofs.Procedures
import Lotbook.Proofs.Cascades
import Lotbook.Proofs.Candidates
import Lotbook.Proofs.Refusals
import Lotbook.Proofs.Issuing
import Lotbook.Proofs.Integrity
import Lotbook.Proofs.Mirrors
import Lotbook.Proofs.Holdings
import Lotbook.Proofs.Draws
import Lotbook.Proofs.Offers
import Lotbook.Proofs.Matchings
import Lotbook.Proofs.Strategies
import Lotbook.Proofs.MissingLots
import Lotbook.Proofs.LotScales
import Lotbook.Proofs.ChangeSets
import Lotbook.Proofs.SplitSheets
import Lotbook.Proofs.Conversions
import Lotbook.Proofs.Periods
import Lotbook.Proofs.Overdrafts
import Lotbook.Proofs.LotTexts
import Lotbook.Proofs.Arrangements
