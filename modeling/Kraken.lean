import Kraken.Lib.Bytes
import Kraken.Lib.Forest
import Kraken.Lib.Slices
import Kraken.Lib.Ordered
import Kraken.Iam.Policies
import Kraken.Rx.Etree
import Kraken.Rx.Render
import Kraken.Rx.EntityTree
import Kraken.Rx.Identities
import Kraken.Lib.Labels
import Kraken.Lib.Document
import Kraken.Rx.BuildView
import Kraken.Rx.Shown
import Kraken.Rx.ViewRuns
import Kraken.Mdt.Capnd
import Kraken.Mdt.Serde
import Kraken.Mdt.SerdeImage
import Kraken.Mdt.SerdeRoundtrip
import Kraken.Lib.Utf8
import Kraken.Mdt.Backtrack
import Kraken.Mdt.Clean
import Kraken.Mdt.Threads
import Kraken.Mdt.CaptureTree
import Kraken.Mdt.Walker
import Kraken.Mdt.Builder
import Kraken.Mdt.Merge
import Kraken.Mdt.Traverse
import Kraken.Mdt.RecordWalk
import Kraken.Mdt.Limits
import Kraken.Mdt.Address
import Kraken.Mdt.View
import Kraken.Mdt.Encrypt
import Kraken.Mdt.PathLookup
import Kraken.Lib.Strconv
import Kraken.Lib.Scanner
import Kraken.Mdt.Lorth
import Kraken.Mdt.LorthRoundtrip
import Kraken.Mdt.LorthLists
import Kraken.Lib.Gapped
import Kraken.Mdt.Ebnf
import Kraken.Mdt.Compile
import Kraken.Mdt.Ranges
import Kraken.Mdt.HolePattern
import Kraken.Mdt.HoleMeaning
import Kraken.Mdt.HoleCompile
import Kraken.Mdt.HoleGrammar
import Kraken.Lib.Probe
import Kraken.Datacell.Fields
import Kraken.Datacell.Viewport
import Kraken.Metrics.Rrd
import Kraken.Piql.Expr
import Kraken.Piql.Impeller
import Kraken.Piql.Table
import Kraken.Piql.Filters
import Kraken.Piql.Register
import Kraken.Piql.FilterSets
import Kraken.Piql.Delivery
import Kraken.Piql.Frame
import Kraken.Piql.Tally
import Kraken.Piql.WindowCount
import Kraken.Piql.WindowOutput
import Kraken.Shards.Pattern
import Kraken.Shards.Complete
import Kraken.Shards.Brackets
import Kraken.Sqlite.Pool
import Kraken.Sqlite.Vtabs
import Kraken.Sqlite.Columns
import Kraken.Logstream.PathMatch
import Kraken.Logstream.Glob
import Kraken.Syslog.Circ
import Kraken.Vectordev.Conditions
import Kraken.Syslog.Routing
import Kraken.Hub.Processing
import Kraken.Lib.Fallible
import Kraken.Lib.Strings
import Kraken.Lib.Signs
import Kraken.Lib.Rfc3339
import Kraken.Lib.Search
import Kraken.Ulid
import Kraken.Hub.Manifest
import Kraken.Hub.ManifestLines
import Kraken.Hub.ManifestRoundtrip
import Kraken.Hub.Nbar
import Kraken.Hub.NbarLines
import Kraken.Hub.NbarRoundtrip
import Kraken.Hub.NbarSafety
import Kraken.Lib.Heap
import Kraken.Hub.Search
import Kraken.Hub.Schedule
import Kraken.Hub.Store
import Kraken.Hub.Notebooks
import Kraken.Hub.Sync
import Kraken.Iam.Lru
import Kraken.Iam.AwsAuth
import Kraken.Logstream.WalkDir
import Kraken.Lib.Tokens
import Kraken.Piql.Parse
import Kraken.Piql.PivotText
import Kraken.Piql.Grammar
import Kraken.Logstream.Sftp
import Kraken.Hub.Editor
import Kraken.Lib.Calendar
import Kraken.Iso8601.Duration
import Kraken.Iso8601.Reading
import Kraken.Iso8601.Errors
import Kraken.Iso8601.Description
import Kraken.Iso8601.Repetition
import Kraken.Lib.TextScanner
import Kraken.Lib.TextTokens
import Kraken.Lib.TextStream
import Kraken.Docparse
import Kraken.DocparseRuns
import Kraken.Iam.Document
import Kraken.Iam.DocumentRuns
import Kraken.Iam.DocumentRoundtrip
import Kraken.Lib.Sscan
import Kraken.Sqlite.Handover
import Kraken.Aws.Policy
import Kraken.Aws.PolicyPlaces
import Kraken.Aws.PolicyRecords
import Kraken.Hub.Pivot
import Kraken.Hub.Signature
import Kraken.Lib.Levels
import Kraken.Hub.Prose
import Kraken.Hub.Keyring
import Kraken.Lib.StableSort
import Kraken.Datacell.Sort
import Kraken.Lib.HeapLess
import Kraken.Datacell.Layout
import Kraken.Datacell.Histogram
import Kraken.Lib.Chain
import Kraken.Lib.Keyed
import Kraken.Datacell.Pivots
import Kraken.Datacell.PatternEditor
import Kraken.Lib.Units
import Kraken.Hub.LogEscape
import Kraken.Hub.LogOrder
import Kraken.Hub.LogAttrs
import Kraken.Datacell.Quotes
import Kraken.Logstream.Filestream
import Kraken.Logstream.S3stream
import Kraken.Lib.Mutex
import Kraken.Sqlite.Driver
import Kraken.Sqlite.Transfer
import Kraken.Sqlite.Funcs
import Kraken.Hub.Listing
import Kraken.Lib.Lines
import Kraken.Journaltcl.ProcessRead
import Kraken.Aws.Config
import Kraken.Lib.Regroup
import Kraken.Lib.Checksum
import Kraken.Lib.LetterCase
import Kraken.Bech32.Encoding
import Kraken.Bech32.Groups
import Kraken.Bech32.Polymod
import Kraken.Bech32.Roundtrip
import Kraken.Lib.Contract
import Kraken.Lib.Slots
import Kraken.Sqlite.Cursors
import Kraken.Rx.Pool
import Kraken.Lib.Numeral
import Kraken.UlidOrder
import Kraken.UlidRuns
import Kraken.Hub.Tasks
import Kraken.Lib.TextQuotes
import Kraken.Mdt.EbnfText
import Kraken.Mdt.EbnfParsed
import Kraken.Mdt.EbnfPieces
import Kraken.Mdt.EbnfReread
import Kraken.Mdt.EbnfRoundtrip
