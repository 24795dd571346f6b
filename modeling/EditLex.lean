import EditLex.Ambient
import EditLex.Cache
import EditLex.Cache.Run
import EditLex.Cache.Use
import EditLex.Cache.Watched
import EditLex.Change
import EditLex.Coord
import EditLex.Document
import EditLex.Document.Client
import EditLex.Event
import EditLex.Fault
import EditLex.Focused
import EditLex.Lexer
import EditLex.Lexer.Samples
import EditLex.Lexer.Words
import EditLex.LineTable
import EditLex.Lookahead
import EditLex.Lookahead.Bounded
import EditLex.Lookahead.Op
import EditLex.Position
import EditLex.Producer
import EditLex.Producer.Feed
import EditLex.Producer.Pieces
import EditLex.Producer.Reader
import EditLex.Scan
import EditLex.Scope.Cell
import EditLex.Scope.Program
import EditLex.Settings
import EditLex.Shared
import EditLex.Source
import EditLex.Source.Op
import EditLex.Stack
import EditLex.Text.Blank
import EditLex.Text.Invisible
import EditLex.Text.Quoted
import EditLex.Update
import EditLex.Utf8
import EditLex.Wire
import EditLex.Proofs.Delivery
import EditLex.Proofs.Reading
import EditLex.Proofs.PlainReader
import EditLex.Proofs.Units
import EditLex.Proofs.Focus
import EditLex.Proofs.Reuse
import EditLex.Proofs.Words
import EditLex.Proofs.Session
import EditLex.Proofs.Decoding
import EditLex.Proofs.Characters
import EditLex.Proofs.Scoping
import EditLex.Proofs.Runs
import EditLex.Proofs.Snapshots
import EditLex.Proofs.Boundaries
import EditLex.Proofs.Edits
import EditLex.Proofs.Lines
import EditLex.Proofs.Positions
import EditLex.Proofs.Entries
import EditLex.Proofs.History
import EditLex.Proofs.Indexed
import EditLex.Proofs.Segments
import EditLex.Proofs.Feeds
import EditLex.Proofs.LineColumns
import EditLex.Proofs.RunningPosition
import EditLex.Proofs.LongestWords
import EditLex.Proofs.Tokenising
import EditLex.Proofs.Restarting
import EditLex.Proofs.Attempts
import EditLex.Proofs.Splicing
import EditLex.Proofs.KeptUnits
import EditLex.Proofs.Pulls
import EditLex.Proofs.Resuming
import EditLex.Proofs.Supply
import EditLex.Proofs.Demand
import EditLex.Proofs.Advancing
import EditLex.Proofs.Continuing
import EditLex.Proofs.Eviction
import EditLex.Proofs.Watching
import EditLex.Proofs.Guards
import EditLex.Proofs.Restoring
import EditLex.Proofs.Ordering
import EditLex.Proofs.Slicing
import EditLex.Proofs.CutCharacters
import EditLex.Proofs.Origins
